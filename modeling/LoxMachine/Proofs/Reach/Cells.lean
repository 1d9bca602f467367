import LoxMachine.Proofs.Value.Fits

namespace LoxMachine

/-- What a program can change. -/
inductive Cell where
  | scope (e : ScopeId)
  | object (o : ObjectId)
  | host (index : Nat)

/-- A function of the host that may answer with what the host keeps. -/
def HostFunction.Recalls (function : HostFunction) : Prop :=
  ∃ calls arguments choose links, function calls arguments = .recalled choose links

/-- A scope in which a method of the class stands, its own or one of a class that it extends. -/
inductive Class.Mentions : Class → ScopeId → Prop
  | method {c : Class} {name : String} {m : Method} : (name, m) ∈ c.methods → Mentions c m.scope
  | inherited {c base : Class} {e : ScopeId} :
    c.superclass = some base → Mentions base e → Mentions c e

/-- The cells that a value holds on to by itself. -/
inductive Value.Mentions : Value → Cell → Prop
  | closure (f : Closure) : Mentions (.closure f) (.scope f.scope)
  | cls {c : Class} {e : ScopeId} : c.Mentions e → Mentions (.cls c) (.scope e)
  | object (o : Object) : Mentions (.object o) (.object o.id)
  | kind {o : Object} {e : ScopeId} : o.cls.Mentions e → Mentions (.object o) (.scope e)
  | native (f : Native) : Mentions (.native f) (.host f.index)

/-- The cells that are reached from the global scope and the held values. -/
inductive Store.Reaches (s : Store) (held : List Value) : Cell → Prop
  | globals : Reaches s held (.scope Store.globals)
  | held {a : Value} {p : Cell} : a ∈ held → a.Mentions p → Reaches s held p
  | enclosing {e outer : ScopeId} :
    Reaches s held (.scope e) → s.scopes.enclosing e = some outer → Reaches s held (.scope outer)
  | binding {e : ScopeId} {name : String} {a : Value} {p : Cell} :
    Reaches s held (.scope e) → (name, a) ∈ s.scopes.bindings e → a.Mentions p → Reaches s held p
  | field {o : Object} {name : String} {a : Value} {p : Cell} :
    Reaches s held (.object o.id) → (name, a) ∈ s.fieldsOf o → a.Mentions p → Reaches s held p
  | kept {index : Nat} {entry : HostEntry} {a : Value} {p : Cell} :
    Reaches s held (.host index) → s.host[index]? = some entry → entry.function.Recalls →
      a ∈ s.kept → a.Mentions p → Reaches s held p

/-- The cell is there already. -/
def Store.Has (s : Store) : Cell → Prop
  | .scope e => e < s.scopes.scopes.size
  | .object o => o < s.fields.size
  | .host index => index < s.host.size

instance Store.decidableHas (s : Store) : DecidablePred s.Has
  | .scope e => inferInstanceAs (Decidable (e < s.scopes.scopes.size))
  | .object o => inferInstanceAs (Decidable (o < s.fields.size))
  | .host index => inferInstanceAs (Decidable (index < s.host.size))

/-- What is reached and what is still to be made. -/
def Store.Region (s : Store) (held : List Value) (p : Cell) : Prop := s.Reaches held p ∨ ¬ s.Has p

def Value.Within (P : Cell → Prop) (a : Value) : Prop := ∀ p, a.Mentions p → P p

structure Store.Within (P : Cell → Prop) (s : Store) : Prop where
  globals : P (.scope globals)
  fresh : ∀ p, ¬ s.Has p → P p
  enclosing : ∀ e outer, P (.scope e) → s.scopes.enclosing e = some outer → P (.scope outer)
  bindings : ∀ e, P (.scope e) → ∀ entry ∈ s.scopes.bindings e, entry.2.Within P
  fields : ∀ o : Object, P (.object o.id) → ∀ entry ∈ s.fieldsOf o, entry.2.Within P
  kept : ∀ (index : Nat) (entry : HostEntry), P (.host index) → s.host[index]? = some entry →
    entry.function.Recalls → ∀ a ∈ s.kept, a.Within P

variable {P : Cell → Prop} {s : Store}

theorem Store.within_region (s : Store) (held : List Value) : s.Within (s.Region held) where
  globals := .inl .globals
  fresh p absent := .inr absent
  enclosing e outer here around := by
    rcases here with reached | absent
    · exact .inl (reached.enclosing around)
    · exact absurd (Forest.lt_size_of_enclosing around) absent
  bindings e here entry member p mentioned := by
    rcases here with reached | absent
    · exact .inl (reached.binding member mentioned)
    · simp only [Forest.bindings, Array.getElem?_eq_none (Nat.le_of_not_lt absent)] at member
      cases member
  fields o here entry member p mentioned := by
    rcases here with reached | absent
    · exact .inl (reached.field member mentioned)
    · simp only [fieldsOf, Array.getElem?_eq_none (Nat.le_of_not_lt absent)] at member
      cases member
  kept index entry here found recalls a member p mentioned := by
    rcases here with reached | absent
    · exact .inl (reached.kept found recalls member mentioned)
    · exact absurd (Array.getElem?_eq_some_iff.mp found).1 absent

theorem within_toValue (l : Literal) : l.toValue.Within P := by
  intro p mentioned
  cases l <;> cases mentioned

theorem within_nil : Value.nil.Within P := within_toValue .nil

theorem Value.Within.scope {f : Closure} (within : (Value.closure f).Within P) :
    P (.scope f.scope) := within _ (.closure f)

theorem within_closure {f : Closure} (here : P (.scope f.scope)) : (Value.closure f).Within P := by
  intro p mentioned
  cases mentioned
  exact here

theorem within_object {o : Object} (here : P (.object o.id)) (kind : (Value.cls o.cls).Within P) :
    (Value.object o).Within P := by
  intro p mentioned
  cases mentioned with
  | object => exact here
  | kind method => exact kind _ (.cls method)

theorem Value.Within.cls {o : Object} (within : (Value.object o).Within P) :
    (Value.cls o.cls).Within P := by
  intro p mentioned
  cases mentioned with
  | cls method => exact within _ (.kind method)

theorem Value.Within.base {c base : Class} (within : (Value.cls c).Within P)
    (extended : c.superclass = some base) : (Value.cls base).Within P := by
  intro p mentioned
  cases mentioned with
  | cls method => exact within _ (.cls (.inherited extended method))

theorem Class.mentions_findMethod {name : String} {found : Method} :
    ∀ {c : Class}, c.findMethod name = some found → c.Mentions found.scope
  | ⟨_, _, superclass, methods⟩, same => by
    unfold Class.findMethod at same
    split at same
    · rename_i own
      cases same
      exact .method (Table.mem_of_get? own)
    · cases superclass with
      | none => cases same
      | some base => exact .inherited rfl (mentions_findMethod same)

theorem Value.Within.method {c : Class} (within : (Value.cls c).Within P) {name : String}
    {found : Method} (same : c.findMethod name = some found) : P (.scope found.scope) :=
  within _ (.cls (Class.mentions_findMethod same))

theorem within_cls {c : Class} (methods : ∀ entry ∈ c.methods, P (.scope entry.2.scope))
    (inherited : ∀ base, c.superclass = some base → (Value.cls base).Within P) :
    (Value.cls c).Within P := by
  intro p mentioned
  cases mentioned with
  | cls method =>
    cases method with
    | method member => exact methods _ member
    | inherited extended method => exact inherited _ extended _ (.cls method)

namespace Store

theorem Within.freshScope (within : s.Within P) : P (.scope s.scopes.scopes.size) :=
  within.fresh (.scope _) (Nat.lt_irrefl _)

theorem Within.freshObject (within : s.Within P) : P (.object s.fields.size) :=
  within.fresh (.object _) (Nat.lt_irrefl _)

theorem Within.get (within : s.Within P) {e : ScopeId} (here : P (.scope e)) {name : String}
    {a : Value} (found : s.scopes.get e name = .ok a) : a.Within P := by
  unfold Forest.get at found
  split at found
  · rename_i bound
    cases found
    exact within.bindings e here (name, a) (Table.mem_of_get? bound)
  · cases found

theorem Within.outward (within : s.Within P) {n : Nat} {e target : ScopeId} (here : P (.scope e))
    (found : s.scopes.outward n e = some target) : P (.scope target) := by
  induction n generalizing e with
  | zero =>
    cases found
    exact here
  | succ n ih =>
    obtain ⟨outer, around, further⟩ := Option.bind_eq_some_iff.mp found
    exact ih (within.enclosing e outer here around) further

theorem Within.ancestor (within : s.Within P) {d : Int} {e target : ScopeId}
    (here : P (.scope e)) (found : s.scopes.ancestor e d = .ok target) : P (.scope target) := by
  unfold Forest.ancestor at found
  split at found
  · rename_i reached
    cases found
    exact within.outward here reached
  · cases found

theorem Within.getAt (within : s.Within P) {e : ScopeId} (here : P (.scope e)) {d : Int}
    {name : String} {a : Value} (found : s.scopes.getAt e d name = .ok a) : a.Within P := by
  unfold Forest.getAt at found
  cases reached : s.scopes.ancestor e d with
  | error _ =>
    rw [reached] at found
    cases found
  | ok target =>
    rw [reached] at found
    exact within.get (within.ancestor here reached) found

theorem Within.field (within : s.Within P) {o : Object} (here : P (.object o.id)) {name : String}
    {a : Value} (found : (s.fieldsOf o).get? name = some a) : a.Within P :=
  within.fields o here (name, a) (Table.mem_of_get? found)

theorem Within.congr {t : Store} (within : s.Within P) (scopes : t.scopes = s.scopes)
    (fields : t.fields = s.fields) (host : t.host = s.host) (kept : t.kept = s.kept) :
    t.Within P := by
  obtain ⟨_, _, _, _, _⟩ := t
  cases scopes
  cases fields
  cases host
  cases kept
  exact ⟨within.globals, within.fresh, within.enclosing, within.bindings, within.fields,
    within.kept⟩

theorem Within.define (within : s.Within P) (e : ScopeId) (name : String) {a : Value}
    (value : a.Within P) : (s.define e name a).Within P where
  globals := within.globals
  fresh p absent := by
    apply within.fresh
    cases p with
    | scope q =>
      simp only [Has, Store.define, Forest.size_define] at absent
      exact absent
    | object o | host index => exact absent
  enclosing q outer here around := by
    rw [Store.define, Forest.enclosing_define] at around
    exact within.enclosing q outer here around
  bindings q here entry member := by
    rcases mem_define member with rfl | older
    · exact value
    · exact within.bindings q here entry older
  fields := within.fields
  kept := within.kept

theorem Within.openScope (within : s.Within P) {e : ScopeId} (here : P (.scope e)) :
    (s.openScope e).1.Within P where
  globals := within.globals
  fresh p absent := by
    apply within.fresh
    cases p with
    | scope q =>
      simp only [Has, Store.openScope, Forest.size_grow] at absent
      exact fun old => absent (Nat.lt_succ_of_lt old)
    | object o | host index => exact absent
  enclosing q outer inside around := by
    simp only [Store.openScope, Forest.enclosing_grow] at around
    split at around
    · cases around
      exact here
    · exact within.enclosing q outer inside around
  bindings q inside entry member := by
    simp only [Store.openScope, Forest.bindings_grow] at member
    exact within.bindings q inside entry member
  fields := within.fields
  kept := within.kept

theorem Within.instantiate (within : s.Within P) (c : Class) : (s.instantiate c).1.Within P where
  globals := within.globals
  fresh p absent := by
    apply within.fresh
    cases p with
    | scope q | host index => exact absent
    | object o =>
      simp only [Has, Store.instantiate, Array.size_push] at absent
      exact fun old => absent (Nat.lt_succ_of_lt old)
  enclosing := within.enclosing
  bindings := within.bindings
  fields o here entry member := within.fields o here entry (mem_instantiate member)
  kept := within.kept

theorem Within.setField (within : s.Within P) (o : Object) (name : String) {a : Value}
    (value : a.Within P) : (s.setField o name a).Within P where
  globals := within.globals
  fresh p absent := by
    apply within.fresh
    cases p with
    | scope q | host index => exact absent
    | object q =>
      simp only [Has, Store.setField, Array.size_modify] at absent
      exact absent
  enclosing := within.enclosing
  bindings := within.bindings
  fields q here entry member := by
    rcases mem_setField member with rfl | older
    · exact value
    · exact within.fields q here entry older
  kept := within.kept

theorem Within.identify (within : s.Within P) : s.identify.1.Within P :=
  within.congr rfl rfl rfl rfl

theorem Within.callHost (within : s.Within P) (f : Native) {arguments : List Value}
    (given : ∀ a ∈ arguments, a.Within P) : (s.callHost f arguments).1.Within P where
  globals := within.globals
  fresh p absent := by
    apply within.fresh
    cases p with
    | scope q => rwa [Has, scopes_callHost] at absent
    | object o => rwa [Has, fields_callHost] at absent
    | host index => rwa [Has, size_of_functions (functions_callHost f arguments)] at absent
  enclosing := by
    rw [scopes_callHost]
    exact within.enclosing
  bindings := by
    rw [scopes_callHost]
    exact within.bindings
  fields o := by
    simp only [fieldsOf, fields_callHost]
    exact within.fields o
  kept index later here found recalls a member := by
    obtain ⟨entry, known, same⟩ := entry_of_functions (functions_callHost f arguments) found
    rcases mem_kept_callHost member with argument | older
    · exact given a argument
    · exact within.kept index entry here known (same.symm ▸ recalls) a older

theorem Within.kept_of_recalled (within : s.Within P) {f : Native} (here : P (.host f.index))
    {arguments : List Value} (given : ∀ a ∈ arguments, a.Within P)
    {choose : List Value → Nat} {links : List Link}
    (reply : (s.callHost f arguments).2 = .recalled choose links) :
    ∀ a ∈ (s.callHost f arguments).1.kept, a.Within P := by
  intro a member
  rcases mem_kept_callHost member with argument | older
  · exact given a argument
  · unfold Store.callHost at reply
    split at reply
    · rename_i entry found
      exact within.kept f.index entry here found ⟨_, _, _, _, reply⟩ a older
    · cases reply

theorem Within.follow (within : s.Within P) {a : Value} (value : a.Within P) (link : Link) :
    (s.follow a link).Within P :=
  follow_of within_nil (fun _ _ _ object found => within.field (object _ (.object _)) found)
    (fun _ object => object.cls) (fun _ _ cls extended => cls.base extended) value link

theorem Within.recollect (within : s.Within P) (kept : ∀ a ∈ s.kept, a.Within P)
    (choose : List Value → Nat) (links : List Link) : (s.recollect choose links).Within P :=
  recollect_of within_nil (fun _ _ _ object found => within.field (object _ (.object _)) found)
    (fun _ object => object.cls) (fun _ _ cls extended => cls.base extended) kept choose links

theorem Within.bind (within : s.Within P) {method : Method} (here : P (.scope method.scope))
    {receiver : Value} (value : receiver.Within P) : (s.bind method receiver).1.Within P :=
  ((within.openScope here).define _ "this" value).identify

end Store

end LoxMachine
