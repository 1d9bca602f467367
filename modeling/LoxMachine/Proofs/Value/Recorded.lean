import LoxMachine.Proofs.Program.Functions
import LoxMachine.Proofs.Machine.Openings
import LoxMachine.Proofs.Value.Fits

namespace LoxMachine

structure Past where
  programs : List (List Stmt)
  ledger : List Opening

namespace Past

def Written (w : Past) (s : Stmt) : Prop :=
  ∃ program ∈ w.programs, ∃ around, Stands program around s

def Declares (w : Past) (decl : FunctionDecl) : Prop := ∃ s, w.Written s ∧ decl ∈ s.callables

def IsBody (w : Past) (e : ScopeId) : Prop := ∃ o, w.ledger[e]? = some o ∧ o.IsBody

def add (w : Past) (more : List Opening) : Past := ⟨w.programs, w.ledger ++ more⟩

structure Extends (w v : Past) : Prop where
  programs : w.programs ⊆ v.programs
  ledger : w.ledger <+: v.ledger

variable {w v : Past}

theorem extends_add (w : Past) (more : List Opening) : Extends w (w.add more) :=
  ⟨fun _ => id, List.prefix_append _ _⟩

theorem add_nil (w : Past) : w.add [] = w := by rw [add, List.append_nil]

theorem add_add (w : Past) (first second : List Opening) :
    (w.add first).add second = w.add (first ++ second) := by
  simp only [add, List.append_assoc]

theorem Extends.opening (grown : Extends w v) {e : ScopeId} {o : Opening}
    (known : w.ledger[e]? = some o) : v.ledger[e]? = some o := by
  obtain ⟨added, same⟩ := grown.ledger
  rw [← same, List.getElem?_append_left (List.getElem?_eq_some_iff.mp known).1, known]

theorem Extends.written (grown : Extends w v) {s : Stmt} (known : w.Written s) : v.Written s := by
  obtain ⟨program, member, stands⟩ := known
  exact ⟨program, grown.programs member, stands⟩

theorem Extends.declares (grown : Extends w v) {decl : FunctionDecl} (known : w.Declares decl) :
    v.Declares decl := by
  obtain ⟨s, written, declares⟩ := known
  exact ⟨s, grown.written written, declares⟩

theorem Extends.isBody (grown : Extends w v) {e : ScopeId} (known : w.IsBody e) : v.IsBody e := by
  obtain ⟨o, opened, body⟩ := known
  exact ⟨o, grown.opening opened, body⟩

theorem Written.block {id : NodeId} {body : List Stmt} (written : w.Written (.block id body)) :
    ∀ s ∈ body, w.Written s := by
  obtain ⟨program, member, around, stands⟩ := written
  exact fun s inside => ⟨program, member, _, .block stands inside⟩

theorem Written.yes {id : NodeId} {condition : Expr} {yes : Stmt} {no : Option Stmt}
    (written : w.Written (.branch id condition yes no)) : w.Written yes := by
  obtain ⟨program, member, around, stands⟩ := written
  exact ⟨program, member, around, .yes stands⟩

theorem Written.no {id : NodeId} {condition : Expr} {yes no : Stmt}
    (written : w.Written (.branch id condition yes (some no))) : w.Written no := by
  obtain ⟨program, member, around, stands⟩ := written
  exact ⟨program, member, around, .no stands⟩

theorem Written.loop {id : NodeId} {condition : Expr} {body : Stmt}
    (written : w.Written (.loop id condition body)) : w.Written body := by
  obtain ⟨program, member, around, stands⟩ := written
  exact ⟨program, member, around, .loop stands⟩

theorem Declares.body {decl : FunctionDecl} (declares : w.Declares decl) :
    ∀ s ∈ decl.body, w.Written s := by
  obtain ⟨outer, ⟨program, member, around, stands⟩, own⟩ := declares
  intro s inside
  cases outer with
  | function other =>
    cases List.mem_singleton.mp own
    exact ⟨program, member, _, .function stands inside⟩
  | classDecl id name superclass methods =>
    exact ⟨program, member, _, .method stands own inside⟩
  | _ => cases own

end Past

/-- A method that is declared in a program. If it does not stand where statements are executed, it
is one of those that its class was made with when the scope around it was opened. -/
def Method.Recorded (w : Past) (m : Method) : Prop :=
  w.Declares m.decl ∧
    (w.IsBody m.scope ∨ ∃ name methods base,
      w.ledger[m.scope]? = some (.heritage name methods base) ∧
        ∃ entry, (entry, m) ∈ Machine.methodTable m.scope methods)

def Class.Recorded (w : Past) : Class → Prop
  | ⟨_, _, superclass, methods⟩ =>
    (∀ entry ∈ methods, entry.2.Recorded w) ∧
      match superclass with
      | none => True
      | some base => Class.Recorded w base

/-- A function that is declared in a program. If it does not stand where statements are executed,
it was made when the scope around it was opened. -/
def Closure.Recorded (w : Past) (f : Closure) : Prop :=
  w.Declares f.decl ∧
    (w.IsBody f.scope ∨ ∃ method a, w.ledger[f.scope]? = some (.receiver method a f))

def Value.Recorded (w : Past) : Value → Prop
  | .closure f => f.Recorded w
  | .cls c => c.Recorded w
  | .object o => o.cls.Recorded w
  | .nil | .bool _ | .number _ | .string _ | .native _ => True

theorem recorded_toValue (w : Past) (l : Literal) : l.toValue.Recorded w := by
  cases l <;> exact True.intro

theorem recorded_class {w : Past} {identity : Identity} {name : String} {superclass : Option Class}
    {methods : Table Method} (own : ∀ entry ∈ methods, entry.2.Recorded w)
    (inherited : ∀ base, superclass = some base → base.Recorded w) :
    Class.Recorded w ⟨identity, name, superclass, methods⟩ := by
  cases superclass with
  | none => exact ⟨own, True.intro⟩
  | some base => exact ⟨own, inherited base rfl⟩

theorem recorded_findMethod {w : Past} {name : String} {found : Method} :
    ∀ {c : Class}, c.Recorded w → c.findMethod name = some found → found.Recorded w
  | ⟨_, _, none, _⟩, recorded, same => by
    unfold Class.findMethod at same
    split at same
    · rename_i own
      cases same
      exact recorded.1 _ (Table.mem_of_get? own)
    · cases same
  | ⟨_, _, some _, _⟩, recorded, same => by
    unfold Class.findMethod at same
    split at same
    · rename_i own
      cases same
      exact recorded.1 _ (Table.mem_of_get? own)
    · exact recorded_findMethod recorded.2 same

def Opening.Recorded (w : Past) (f : Forest Value) (e : ScopeId) : Opening → Prop
  | .global | .block _ _ => True
  | .call g => f.enclosing e = some g.scope ∧ g.Recorded w
  | .receiver method a bound =>
    f.enclosing e = some method.scope ∧ f.get e "this" = .ok a ∧ bound.scope = e ∧
      bound.decl = method.decl ∧ method.Recorded w
  | .heritage name methods base =>
    f.get e "super" = .ok (.cls base) ∧ ∃ id use, w.Written (.classDecl id name (some use) methods)

section Extends

variable {w v : Past} (grown : w.Extends v)

include grown

theorem Method.Recorded.later {m : Method} (recorded : m.Recorded w) : m.Recorded v := by
  refine ⟨grown.declares recorded.1, recorded.2.imp grown.isBody ?_⟩
  rintro ⟨name, methods, base, opened, member⟩
  exact ⟨name, methods, base, grown.opening opened, member⟩

theorem Class.Recorded.later : ∀ {c : Class}, c.Recorded w → c.Recorded v
  | ⟨_, _, none, _⟩, recorded =>
    ⟨fun entry member => (recorded.1 entry member).later grown, True.intro⟩
  | ⟨_, _, some _, _⟩, recorded =>
    ⟨fun entry member => (recorded.1 entry member).later grown, Class.Recorded.later recorded.2⟩

theorem Closure.Recorded.later {f : Closure} (recorded : f.Recorded w) : f.Recorded v := by
  refine ⟨grown.declares recorded.1, recorded.2.imp grown.isBody ?_⟩
  rintro ⟨method, a, opened⟩
  exact ⟨method, a, grown.opening opened⟩

theorem Value.Recorded.later {a : Value} (recorded : a.Recorded w) : a.Recorded v := by
  cases a with
  | closure f => exact Closure.Recorded.later grown recorded
  | cls c => exact Class.Recorded.later grown recorded
  | object o => exact Class.Recorded.later grown (c := o.cls) recorded
  | nil | bool b | number n | string s | native f => exact True.intro

theorem Opening.Recorded.later {f : Forest Value} {e : ScopeId} {o : Opening}
    (recorded : o.Recorded w f e) : o.Recorded v f e := by
  cases o with
  | global | block _ _ => exact True.intro
  | call g => exact ⟨recorded.1, Closure.Recorded.later grown recorded.2⟩
  | receiver method a bound =>
    obtain ⟨around, found, scope, decl, method_recorded⟩ := recorded
    exact ⟨around, found, scope, decl, method_recorded.later grown⟩
  | heritage name methods base =>
    obtain ⟨found, id, use, written⟩ := recorded
    exact ⟨found, id, use, grown.written written⟩

end Extends

/-- What was opened is the same in a forest in which the scope stands where it stood, and binds
`this` and `super` as it did. -/
theorem Opening.Recorded.congr {w : Past} {f g : Forest Value} {e : ScopeId} {o : Opening}
    (recorded : o.Recorded w f e) (enclosing : g.enclosing e = f.enclosing e)
    (get : ¬ o.IsBody → ∀ name, name = "this" ∨ name = "super" → g.get e name = f.get e name) :
    o.Recorded w g e := by
  cases o with
  | global | block _ _ => exact True.intro
  | call _ => exact ⟨enclosing.trans recorded.1, recorded.2⟩
  | receiver _ _ _ =>
    exact ⟨enclosing.trans recorded.1, (get id "this" (.inl rfl)).trans recorded.2.1, recorded.2.2⟩
  | heritage _ _ _ => exact ⟨(get id "super" (.inr rfl)).trans recorded.1, recorded.2⟩

theorem Forest.bindings_size {α : Type} (f : Forest α) : f.bindings f.scopes.size = [] := by
  rw [Forest.bindings, Array.getElem?_eq_none (Nat.le_refl _)]

/-- A store that the past accounts for. -/
structure Store.Recorded (w : Past) (s : Store) : Prop where
  sized : w.ledger.length = s.scopes.scopes.size
  global : w.ledger[0]? = some .global
  openings : ∀ e (o : Opening), w.ledger[e]? = some o → o.Recorded w s.scopes e
  bound : ∀ e, ∀ entry ∈ s.scopes.bindings e, entry.2.Recorded w
  fields : ∀ o, ∀ entry ∈ s.fieldsOf o, entry.2.Recorded w
  kept : ∀ a ∈ s.kept, a.Recorded w

namespace Store

variable {w v : Past} {s : Store}

theorem Recorded.globals (recorded : s.Recorded w) : w.IsBody Store.globals :=
  ⟨.global, recorded.global, True.intro⟩

theorem Recorded.get (recorded : s.Recorded w) {e : ScopeId} {name : String} {a : Value}
    (found : s.scopes.get e name = .ok a) : a.Recorded w := by
  unfold Forest.get at found
  split at found
  · rename_i b here
    cases found
    exact recorded.bound e _ (Table.mem_of_get? here)
  · cases found

theorem Recorded.getAt (recorded : s.Recorded w) {e : ScopeId} {d : Int} {name : String} {a : Value}
    (found : s.scopes.getAt e d name = .ok a) : a.Recorded w := by
  unfold Forest.getAt at found
  cases reached : s.scopes.ancestor e d with
  | error _ =>
    rw [reached] at found
    cases found
  | ok target =>
    rw [reached] at found
    exact recorded.get found

theorem Recorded.field (recorded : s.Recorded w) {o : Object} {name : String} {a : Value}
    (found : (s.fieldsOf o).get? name = some a) : a.Recorded w :=
  recorded.fields o _ (Table.mem_of_get? found)

theorem Recorded.more (recorded : s.Recorded w) {programs : List (List Stmt)}
    (more : w.programs ⊆ programs) : s.Recorded ⟨programs, w.ledger⟩ := by
  have grown : w.Extends ⟨programs, w.ledger⟩ := ⟨more, List.prefix_refl _⟩
  exact ⟨recorded.sized, recorded.global,
    fun e o opened => (recorded.openings e o opened).later grown,
    fun e entry member => (recorded.bound e entry member).later grown,
    fun o entry member => (recorded.fields o entry member).later grown,
    fun a member => (recorded.kept a member).later grown⟩

theorem Recorded.congr {t : Store} (recorded : s.Recorded w) (scopes : t.scopes = s.scopes)
    (fields : t.fields = s.fields) (kept : t.kept = s.kept) : t.Recorded w := by
  obtain ⟨tScopes, tFields, _, tKept, _⟩ := t
  cases scopes
  cases fields
  cases kept
  exact ⟨recorded.sized, recorded.global, recorded.openings, recorded.bound, recorded.fields,
    recorded.kept⟩

theorem Recorded.keep (recorded : s.Recorded w) {values : List Value}
    (each : ∀ a ∈ values, a.Recorded w) : (s.keep values).Recorded w :=
  { recorded with kept := List.forall_mem_append.mpr ⟨each, recorded.kept⟩ }

theorem Recorded.define (recorded : s.Recorded w) {e : ScopeId} {name : String} {a : Value}
    (free : w.IsBody e ∨ name ≠ "this" ∧ name ≠ "super") (value : a.Recorded w) :
    (s.define e name a).Recorded w := by
  refine ⟨recorded.sized.trans (Forest.size_define s.scopes e name a).symm, recorded.global, ?_, ?_,
    recorded.fields, recorded.kept⟩
  · intro query o opened
    apply (recorded.openings query o opened).congr (Forest.enclosing_define s.scopes e query name a)
    intro inner other kept
    by_cases inside : e < s.scopes.scopes.size
    · refine (Forest.get_define s.scopes e query name other a inside).trans (if_neg ?_)
      rintro ⟨rfl, rfl⟩
      rcases free with ⟨b, here, body⟩ | ⟨no_this, no_super⟩
      · cases opened.symm.trans here
        exact inner body
      · exact kept.elim no_this no_super
    · simp only [Forest.get, Forest.bindings_define, inside, and_false, ↓reduceIte]
  · intro query entry member
    rcases mem_define member with rfl | older
    · exact value
    · exact recorded.bound query entry older

/-- A scope more, behind those that were there. -/
theorem Recorded.push {t : Store} {o : Opening} (recorded : s.Recorded w)
    (size : t.scopes.scopes.size = s.scopes.scopes.size + 1)
    (enclosing : ∀ e < s.scopes.scopes.size, t.scopes.enclosing e = s.scopes.enclosing e)
    (bindings : ∀ e, e ≠ s.scopes.scopes.size → t.scopes.bindings e = s.scopes.bindings e)
    (own : o.Recorded (w.add [o]) t.scopes s.scopes.scopes.size)
    (bound : ∀ entry ∈ t.scopes.bindings s.scopes.scopes.size, entry.2.Recorded w)
    (fields : t.fields = s.fields) (kept : t.kept = s.kept) : t.Recorded (w.add [o]) := by
  have grown := w.extends_add [o]
  refine ⟨?_, grown.opening recorded.global, ?_, ?_, ?_, ?_⟩
  · rw [Past.add, List.length_append, List.length_singleton, recorded.sized, size]
  · intro e other opened
    rcases Nat.lt_or_ge e w.ledger.length with older | newer
    · rw [Past.add, List.getElem?_append_left older] at opened
      rw [recorded.sized] at older
      apply ((recorded.openings e other opened).later grown).congr (enclosing e older)
      intro _ name _
      simp only [Forest.get, bindings e (Nat.ne_of_lt older)]
    · rw [Past.add, List.getElem?_append_right newer, List.getElem?_singleton] at opened
      split at opened
      · rename_i last
        cases opened
        rw [Nat.le_antisymm (Nat.sub_eq_zero_iff_le.mp last) newer, recorded.sized]
        exact own
      · cases opened
  · intro e entry member
    by_cases new : e = s.scopes.scopes.size
    · subst new
      exact (bound entry member).later grown
    · rw [bindings e new] at member
      exact (recorded.bound e entry member).later grown
  · intro object entry member
    simp only [fieldsOf, fields] at member
    exact (recorded.fields object entry member).later grown
  · rw [kept]
    exact fun a member => (recorded.kept a member).later grown

theorem Recorded.openScope {e : ScopeId} {o : Opening} (recorded : s.Recorded w)
    (own : o.Recorded (w.add [o]) (s.openScope e).1.scopes s.scopes.scopes.size) :
    (s.openScope e).1.Recorded (w.add [o]) := by
  refine recorded.push (Forest.size_grow s.scopes (some e)) ?_ ?_ own ?_ rfl rfl
  · intro older inside
    exact (Forest.enclosing_grow s.scopes (some e) older).trans (if_neg (Nat.ne_of_lt inside))
  · exact fun query _ => Forest.bindings_grow s.scopes (some e) query
  · intro entry member
    rw [Store.openScope, Forest.bindings_grow, Forest.bindings_size] at member
    cases member

theorem Recorded.openNamed {e : ScopeId} {o : Opening} {name : String} {a : Value}
    (recorded : s.Recorded w) (value : a.Recorded w)
    (own : o.Recorded (w.add [o])
      ((s.openScope e).1.define s.scopes.scopes.size name a).scopes s.scopes.scopes.size) :
    ((s.openScope e).1.define s.scopes.scopes.size name a).Recorded (w.add [o]) := by
  refine recorded.push ?_ ?_ ?_ own ?_ rfl rfl
  · exact (Forest.size_define _ _ _ _).trans (Forest.size_grow s.scopes (some e))
  · intro older inside
    exact (Forest.enclosing_define _ _ older name a).trans
      ((Forest.enclosing_grow s.scopes (some e) older).trans (if_neg (Nat.ne_of_lt inside)))
  · intro query other
    refine (Forest.bindings_define _ _ query name a).trans ?_
    rw [if_neg fun here => other here.1.symm]
    exact Forest.bindings_grow s.scopes (some e) query
  · intro entry member
    rcases mem_define member with rfl | absent
    · exact value
    · rw [Store.openScope, Forest.bindings_grow, Forest.bindings_size] at absent
      cases absent

theorem openNamed_has (s : Store) (e : ScopeId) (name : String) (a : Value) :
    ((s.openScope e).1.define s.scopes.scopes.size name a).scopes.enclosing s.scopes.scopes.size =
        some e ∧
      ((s.openScope e).1.define s.scopes.scopes.size name a).scopes.get s.scopes.scopes.size name =
        .ok a := by
  constructor
  · exact (Forest.enclosing_define _ _ _ name a).trans
      ((Forest.enclosing_grow s.scopes (some e) _).trans (if_pos rfl))
  · refine (Forest.get_define _ _ _ name name a ?_).trans (if_pos ⟨rfl, rfl⟩)
    rw [Store.openScope, Forest.size_grow]
    exact Nat.lt_succ_self _

theorem Recorded.identify (recorded : s.Recorded w) : s.identify.1.Recorded w :=
  recorded.congr rfl rfl rfl

theorem Recorded.bind {m : Method} {a : Value} (recorded : s.Recorded w) (method : m.Recorded w)
    (value : a.Recorded w) :
    (s.bind m a).1.Recorded (w.add [.receiver m a (s.bind m a).2]) ∧
      (s.bind m a).2.Recorded (w.add [.receiver m a (s.bind m a).2]) := by
  have grown := w.extends_add [.receiver m a (s.bind m a).2]
  have later := method.later grown
  obtain ⟨around, found⟩ := openNamed_has s m.scope "this" a
  have named := recorded.openNamed (o := .receiver m a (s.bind m a).2) value
    ⟨around, found, rfl, rfl, later⟩
  refine ⟨named.identify, later.1, .inr ⟨m, a, ?_⟩⟩
  change (w.ledger ++ [_])[s.scopes.scopes.size]? = _
  rw [← recorded.sized, List.getElem?_concat_length]

theorem Recorded.setField (recorded : s.Recorded w) {o : Object} {name : String} {a : Value}
    (value : a.Recorded w) : (s.setField o name a).Recorded w := by
  refine { recorded with fields := fun query entry member => ?_ }
  rcases mem_setField member with rfl | older
  · exact value
  · exact recorded.fields query entry older

theorem Recorded.instantiate (recorded : s.Recorded w) (c : Class) :
    (s.instantiate c).1.Recorded w :=
  { recorded with
    fields := fun query entry member => recorded.fields query entry (mem_instantiate member) }

theorem Recorded.callHost (recorded : s.Recorded w) (f : Native) {arguments : List Value}
    (each : ∀ a ∈ arguments, a.Recorded w) : (s.callHost f arguments).1.Recorded w := by
  rcases callHost_cases f arguments with same | ⟨host, -, same⟩ <;> rw [same]
  · exact recorded
  · have counted : { s with host }.Recorded w := recorded.congr rfl rfl rfl
    exact counted.keep each

theorem Recorded.recollect (recorded : s.Recorded w) (choose : List Value → Nat) (links : List Link) :
    (s.recollect choose links).Recorded w := by
  refine recollect_of True.intro (fun o name a _ found => recorded.field found) (fun o here => here) ?_
    recorded.kept choose links
  rintro ⟨_, _, _, _⟩ base here rfl
  exact here.2

theorem recorded_initial (programs : List (List Stmt)) :
    Store.initial.Recorded ⟨programs, [.global]⟩ := by
  refine ⟨rfl, rfl, ?_, ?_, ?_, fun _ absent => nomatch absent⟩
  · intro e o opened
    cases e with
    | zero =>
      cases opened
      exact True.intro
    | succ e => cases opened
  · intro e entry member
    cases e <;> cases member
  · intro o entry member
    cases member

end Store

end LoxMachine
