import LoxMachine.Proofs.Scope.Mirror
import LoxMachine.Proofs.Value.Host

namespace LoxMachine

open Static

/-- What values are judged by: the occurrences of the programs at hand, what opened each scope, and
the scopes. -/
structure World where
  occurs : Occurrence → Prop
  shape : List Origin
  forest : Forest Value

namespace World

structure Extends (w v : World) : Prop where
  occurs : ∀ o, w.occurs o → v.occurs o
  shape : w.shape <+: v.shape
  forest : Forest.Extends w.forest v.forest

variable {w v u : World}

theorem Extends.refl (w : World) : Extends w w :=
  ⟨fun _ => id, List.prefix_refl w.shape, Forest.Extends.refl w.forest⟩

theorem Extends.trans (first : Extends w v) (second : Extends v u) : Extends w u :=
  ⟨fun o here => second.occurs o (first.occurs o here), first.shape.trans second.shape,
    first.forest.trans second.forest⟩

def Mirrors (w : World) (pending : Option String) (e : ScopeId) (levels : List Level) : Prop :=
  Static.Mirrors w.shape w.forest pending e levels

theorem Mirrors.later {pending : Option String} {e : ScopeId} {levels : List Level}
    (later : Extends w v) (mirrors : w.Mirrors pending e levels) : v.Mirrors pending e levels := by
  obtain ⟨added, same⟩ := later.shape
  unfold Mirrors
  rw [← same]
  exact Static.Mirrors.extend added later.forest mirrors

end World

def Method.Fits (w : World) (m : Method) : Prop :=
  ∃ context levels, m.decl.Fits w.occurs context (receiverLevel :: levels) ∧
    w.Mirrors none m.scope levels

def Class.Fits (w : World) : Class → Prop
  | ⟨_, _, superclass, methods⟩ =>
    (∀ entry ∈ methods, entry.2.Fits w) ∧
      match superclass with
      | none => True
      | some base => Class.Fits w base

theorem Class.fits_iff {w : World} {identity : Identity} {name : String}
    {superclass : Option Class} {methods : Table Method} :
    Class.Fits w ⟨identity, name, superclass, methods⟩ ↔
      (∀ entry ∈ methods, entry.2.Fits w) ∧
        ∀ base, superclass = some base → base.Fits w := by
  cases superclass with
  | none => exact ⟨fun fits => ⟨fits.1, fun _ absent => nomatch absent⟩, fun fits => ⟨fits.1, True.intro⟩⟩
  | some base =>
    refine ⟨fun fits => ⟨fits.1, fun _ same => Option.some.inj same ▸ fits.2⟩, fun fits => ?_⟩
    exact ⟨fits.1, fits.2 base rfl⟩

def Closure.Fits (w : World) (f : Closure) : Prop :=
  ∃ context levels, f.decl.Fits w.occurs context levels ∧ w.Mirrors none f.scope levels ∧
    (f.isInitializer = true → w.forest.contains f.scope "this" = true)

def Value.Fits (w : World) : Value → Prop
  | .closure f => f.Fits w
  | .cls c => c.Fits w
  | .object o => o.cls.Fits w
  | .nil | .bool _ | .number _ | .string _ | .native _ => True

theorem fits_toValue (w : World) (l : Literal) : l.toValue.Fits w := by
  cases l <;> exact True.intro

section Extends

variable {w v : World} (grown : w.Extends v)

include grown

theorem Method.Fits.later {m : Method} (fits : m.Fits w) : m.Fits v := by
  obtain ⟨context, levels, decl, mirrors⟩ := fits
  exact ⟨context, levels, decl.mono grown.occurs, mirrors.later grown⟩

theorem Closure.Fits.later {f : Closure} (fits : f.Fits w) : f.Fits v := by
  obtain ⟨context, levels, decl, mirrors, object⟩ := fits
  exact ⟨context, levels, decl.mono grown.occurs, mirrors.later grown,
    fun initializer => grown.forest.contains f.scope "this" (object initializer)⟩

theorem Class.Fits.later : ∀ {c : Class}, c.Fits w → c.Fits v
  | ⟨_, _, none, _⟩, fits => ⟨fun entry member => (fits.1 entry member).later grown, True.intro⟩
  | ⟨_, _, some _, _⟩, fits =>
    ⟨fun entry member => (fits.1 entry member).later grown, Class.Fits.later fits.2⟩

theorem Value.Fits.later {a : Value} (fits : a.Fits w) : a.Fits v := by
  cases a with
  | closure f => exact Closure.Fits.later grown fits
  | cls c => exact Class.Fits.later grown fits
  | object o => exact Class.Fits.later grown (c := o.cls) fits
  | nil | bool b | number n | string s | native f => exact True.intro

end Extends

theorem fits_findMethod {w : World} {name : String} {found : Method} :
    ∀ {c : Class}, c.Fits w → c.findMethod name = some found → found.Fits w
  | ⟨_, _, none, methods⟩, fits, same => by
    unfold Class.findMethod at same
    split at same
    · rename_i m own
      cases same
      exact fits.1 _ (Table.mem_of_get? own)
    · cases same
  | ⟨_, _, some base, methods⟩, fits, same => by
    unfold Class.findMethod at same
    split at same
    · rename_i m own
      cases same
      exact fits.1 _ (Table.mem_of_get? own)
    · exact fits_findMethod fits.2 same

abbrev Store.world (s : Store) (G : Occurrence → Prop) (shape : List Origin) : World :=
  ⟨G, shape, s.scopes⟩

structure Store.Fits (G : Occurrence → Prop) (shape : List Origin) (s : Store) : Prop where
  sized : shape.length = s.scopes.scopes.size
  global : shape[0]? = some .global
  rooted : s.scopes.enclosing Store.globals = none
  known : ∀ origin ∈ shape, origin.Known G
  named : ∀ e name origin, e ≠ Store.globals → s.scopes.contains e name = true →
    shape[e]? = some origin → name ∈ origin.names
  objects : ∀ e a, e ≠ Store.globals → s.scopes.get e "this" = .ok a → ∃ o, a = .object o
  classes : ∀ e a, e ≠ Store.globals → s.scopes.get e "super" = .ok a → ∃ c, a = .cls c
  bound : ∀ e, ∀ entry ∈ s.scopes.bindings e, entry.2.Fits (s.world G shape)
  fields : ∀ o, ∀ entry ∈ s.fieldsOf o, entry.2.Fits (s.world G shape)
  kept : ∀ a ∈ s.kept, a.Fits (s.world G shape)

/-- A binding that a scope may get. -/
structure Store.Bindable (s : Store) (shape : List Origin) (e : ScopeId) (name : String)
    (a : Value) : Prop where
  inside : e < s.scopes.scopes.size
  named : ∀ origin, e ≠ Store.globals → shape[e]? = some origin → name ∈ origin.names
  object : e ≠ Store.globals → name = "this" → ∃ o, a = .object o
  cls : e ≠ Store.globals → name = "super" → ∃ c, a = .cls c

namespace Store

variable {G H : Occurrence → Prop} {shape : List Origin} {s : Store}

theorem world_extends {t : Store} {added : List Origin}
    (forest : Forest.Extends s.scopes t.scopes) :
    (s.world G shape).Extends (t.world G (shape ++ added)) :=
  ⟨fun _ => id, List.prefix_append shape added, forest⟩

theorem Fits.ne_globals (fits : s.Fits G shape) {e outer : ScopeId}
    (around : s.scopes.enclosing e = some outer) : e ≠ Store.globals := by
  rintro rfl
  rw [fits.rooted] at around
  cases around

theorem Fits.get (fits : s.Fits G shape) {e : ScopeId} {name : String} {a : Value}
    (found : s.scopes.get e name = .ok a) : a.Fits (s.world G shape) := by
  unfold Forest.get at found
  split at found
  · rename_i b here
    cases found
    exact fits.bound e _ (Table.mem_of_get? here)
  · cases found

theorem Fits.field (fits : s.Fits G shape) {o : Object} {name : String} {a : Value}
    (found : (s.fieldsOf o).get? name = some a) : a.Fits (s.world G shape) :=
  fits.fields o _ (Table.mem_of_get? found)

theorem Fits.getAt (fits : s.Fits G shape) {e : ScopeId} {d : Int} {name : String} {a : Value}
    (found : s.scopes.getAt e d name = .ok a) : a.Fits (s.world G shape) := by
  unfold Forest.getAt at found
  cases reached : s.scopes.ancestor e d with
  | error _ =>
    rw [reached] at found
    cases found
  | ok target =>
    rw [reached] at found
    exact fits.get found

theorem Fits.mono (all : ∀ o, G o → H o) (fits : s.Fits G shape) : s.Fits H shape := by
  have later : (s.world G shape).Extends (s.world H shape) :=
    ⟨all, List.prefix_refl shape, Forest.Extends.refl s.scopes⟩
  exact { fits with
    known := fun origin member => (fits.known origin member).mono all
    bound := fun e entry member => (fits.bound e entry member).later later
    fields := fun o entry member => (fits.fields o entry member).later later
    kept := fun a member => (fits.kept a member).later later }

theorem Fits.congr {t : Store} (fits : s.Fits G shape) (scopes : t.scopes = s.scopes)
    (fields : t.fields = s.fields) (kept : t.kept = s.kept) : t.Fits G shape := by
  obtain ⟨tScopes, tFields, _, tKept, _⟩ := t
  cases scopes
  cases fields
  cases kept
  exact ⟨fits.sized, fits.global, fits.rooted, fits.known, fits.named, fits.objects, fits.classes,
    fits.bound, fits.fields, fits.kept⟩

theorem Fits.keep (fits : s.Fits G shape) {values : List Value}
    (each : ∀ a ∈ values, a.Fits (s.world G shape)) : (s.keep values).Fits G shape :=
  { fits with kept := List.forall_mem_append.mpr ⟨each, fits.kept⟩ }

theorem mem_define {e query : ScopeId} {name : String} {a : Value} {entry : String × Value}
    (member : entry ∈ (s.define e name a).scopes.bindings query) :
    entry = (name, a) ∨ entry ∈ s.scopes.bindings query := by
  simp only [Store.define, Forest.bindings_define] at member
  split at member
  · rename_i here
    exact here.1 ▸ Table.mem_put member
  · exact .inr member

theorem mem_setField {o query : Object} {name : String} {a : Value} {entry : String × Value}
    (member : entry ∈ (s.setField o name a).fieldsOf query) :
    entry = (name, a) ∨ entry ∈ s.fieldsOf query := by
  simp only [Store.setField, fieldsOf, Array.getElem?_modify] at member
  split at member
  · cases held : s.fields[query.id]? with
    | none =>
      simp only [held, Option.map_none, Option.getD_none] at member
      cases member
    | some table =>
      simp only [held, Option.map_some, Option.getD_some] at member
      exact (Table.mem_put member).imp_right fun older => by
        simpa only [fieldsOf, held, Option.getD_some] using older
  · exact .inr member

theorem mem_instantiate {c : Class} {query : Object} {entry : String × Value}
    (member : entry ∈ (s.instantiate c).1.fieldsOf query) : entry ∈ s.fieldsOf query := by
  simp only [Store.instantiate, fieldsOf, Array.getElem?_push] at member
  split at member
  · cases member
  · exact member

theorem extends_define (G : Occurrence → Prop) (shape : List Origin) (s : Store) (e : ScopeId)
    (name : String) (a : Value) :
    (s.world G shape).Extends ((s.define e name a).world G shape) :=
  ⟨fun _ => id, List.prefix_refl shape, Forest.Extends.define s.scopes e name a⟩

theorem Fits.define (fits : s.Fits G shape) {e : ScopeId} {name : String} {a : Value}
    (bindable : s.Bindable shape e name a)
    (value : a.Fits ((s.define e name a).world G shape)) :
    (s.define e name a).Fits G shape := by
  have later := extends_define G shape s e name a
  have get : ∀ query other b, (s.define e name a).scopes.get query other = .ok b →
      (query = e ∧ other = name ∧ a = b) ∨ s.scopes.get query other = .ok b := by
    intro query other b found
    simp only [Store.define, Forest.get_define _ _ _ _ _ _ bindable.inside] at found
    split at found
    · rename_i here
      cases found
      exact .inl ⟨here.1, here.2, rfl⟩
    · exact .inr found
  constructor
  · rw [fits.sized]
    exact (Forest.size_define s.scopes e name a).symm
  · exact fits.global
  · exact (Forest.enclosing_define s.scopes e _ name a).trans fits.rooted
  · exact fits.known
  · intro query other origin inner bound opened
    rcases (Forest.contains_define _ _ _ _ _ _ bindable.inside).mp bound with ⟨rfl, rfl⟩ | bound
    · exact bindable.named origin inner opened
    · exact fits.named query other origin inner bound opened
  · intro query b inner found
    rcases get query _ b found with ⟨rfl, same, rfl⟩ | found
    · exact bindable.object inner same.symm
    · exact fits.objects query b inner found
  · intro query b inner found
    rcases get query _ b found with ⟨rfl, same, rfl⟩ | found
    · exact bindable.cls inner same.symm
    · exact fits.classes query b inner found
  · intro query entry member
    rcases mem_define member with rfl | older
    · exact value
    · exact (fits.bound query entry older).later later
  · exact fun o entry member => (fits.fields o entry member).later later
  · exact fun b member => (fits.kept b member).later later

theorem fits_initial (G : Occurrence → Prop) : Store.initial.Fits G [.global] := by
  have empty : ∀ e name, Store.initial.scopes.get e name = .error (.unbound name) := by
    intro e name
    cases e <;> rfl
  refine ⟨rfl, rfl, rfl, ?_, ?_, ?_, ?_, ?_, ?_, fun _ absent => nomatch absent⟩
  · intro origin member
    cases List.mem_singleton.mp member
    exact True.intro
  · intro e name origin _ bound
    obtain ⟨a, found⟩ := Forest.contains_iff_get.mp bound
    rw [empty] at found
    cases found
  · intro e a _ found
    rw [empty] at found
    cases found
  · intro e a _ found
    rw [empty] at found
    cases found
  · intro e entry member
    cases e <;> cases member
  · intro o entry member
    cases member

theorem Fits.inside (fits : s.Fits G shape) : 0 < s.scopes.scopes.size := by
  rw [← fits.sized]
  exact (List.getElem?_eq_some_iff.mp fits.global).1

theorem Fits.defineGlobal (fits : s.Fits G shape) (name : String) {a : Value}
    (value : a.Fits (s.world G shape)) : (s.define globals name a).Fits G shape :=
  fits.define ⟨fits.inside, fun _ inner => absurd rfl inner, fun inner => absurd rfl inner,
    fun inner => absurd rfl inner⟩ (value.later (extends_define G shape s globals name a))

theorem extends_openScope (e : ScopeId) (origin : Origin) :
    (s.world G shape).Extends ((s.openScope e).1.world G (shape ++ [origin])) :=
  world_extends (Forest.Extends.grow s.scopes (some e))

theorem Fits.openScope (fits : s.Fits G shape) (e : ScopeId) {origin : Origin}
    (known : origin.Known G) : (s.openScope e).1.Fits G (shape ++ [origin]) := by
  have later : (s.world G shape).Extends _ := extends_openScope e origin
  have filled : 0 < shape.length := (List.getElem?_eq_some_iff.mp fits.global).1
  constructor
  · rw [List.length_append, List.length_singleton, fits.sized]
    exact (Forest.size_grow s.scopes (some e)).symm
  · exact (List.getElem?_append_left filled).trans fits.global
  · refine (Forest.enclosing_grow s.scopes (some e) _).trans ?_
    rw [if_neg, fits.rooted]
    rw [← fits.sized]
    exact Nat.ne_of_lt filled
  · intro other member
    rcases List.mem_append.mp member with older | new
    · exact fits.known other older
    · cases List.mem_singleton.mp new
      exact known
  · intro query name opened inner bound here
    rw [Store.openScope, Forest.contains_grow] at bound
    have old : query < shape.length := by
      rw [fits.sized]
      exact Forest.lt_size_of_contains bound
    exact fits.named query name opened inner bound ((List.getElem?_append_left old).symm.trans here)
  · intro query a inner found
    rw [Store.openScope, Forest.get_grow] at found
    exact fits.objects query a inner found
  · intro query a inner found
    rw [Store.openScope, Forest.get_grow] at found
    exact fits.classes query a inner found
  · intro query entry member
    rw [Store.openScope, Forest.bindings_grow] at member
    exact (fits.bound query entry member).later later
  · exact fun o entry member => (fits.fields o entry member).later later
  · exact fun a member => (fits.kept a member).later later

theorem Fits.setField (fits : s.Fits G shape) {o : Object} {name : String} {a : Value}
    (value : a.Fits (s.world G shape)) : (s.setField o name a).Fits G shape := by
  refine { fits with fields := fun query entry member => ?_ }
  rcases mem_setField member with rfl | older
  · exact value
  · exact fits.fields query entry older

theorem Fits.instantiate (fits : s.Fits G shape) (c : Class) :
    (s.instantiate c).1.Fits G shape :=
  { fits with fields := fun query entry member => fits.fields query entry (mem_instantiate member) }

theorem Fits.identify (fits : s.Fits G shape) : s.identify.1.Fits G shape :=
  fits.congr rfl rfl rfl

theorem Fits.callHost (fits : s.Fits G shape) (f : Native) {arguments : List Value}
    (each : ∀ a ∈ arguments, a.Fits (s.world G shape)) : (s.callHost f arguments).1.Fits G shape := by
  rcases callHost_cases f arguments with same | ⟨host, -, same⟩ <;> rw [same]
  · exact fits
  · have counted : { s with host }.Fits G shape := fits.congr rfl rfl rfl
    exact counted.keep each

theorem Fits.recollect (fits : s.Fits G shape) (choose : List Value → Nat) (links : List Link) :
    (s.recollect choose links).Fits (s.world G shape) := by
  refine recollect_of True.intro (fun o name a _ found => fits.field found) (fun o here => here) ?_
    fits.kept choose links
  rintro ⟨_, _, _, _⟩ base here rfl
  exact here.2

theorem Fits.bindable (fits : s.Fits G shape) {pending : Option String} {e : ScopeId}
    {levels : List Level} (mirrors : Static.Mirrors shape s.scopes pending e levels) {name : Token}
    (names : Names levels name.lexeme) (ordinary : name.Ordinary) (a : Value) :
    s.Bindable shape e name.lexeme a := by
  refine ⟨mirrors.lt_size fits.inside, ?_, fun _ same => absurd same ordinary.1,
    fun _ same => absurd same ordinary.2⟩
  intro origin inner opened
  cases levels with
  | nil => exact absurd mirrors inner
  | cons level outer =>
    have same : level.origin = origin :=
      Option.some.inj (mirrors.1.opened.symm.trans opened)
    exact same ▸ names level rfl

theorem Fits.openNamed (fits : s.Fits G shape) {e : ScopeId} {levels : List Level}
    (mirrors : Static.Mirrors shape s.scopes none e levels) {origin : Origin}
    (opens : origin.Known G) {name : String} (named : name ∈ origin.names) {a : Value}
    (value : a.Fits (s.world G shape))
    (object : name = "this" → ∃ o, a = .object o) (cls : name = "super" → ∃ c, a = .cls c) :
    let later := (s.openScope e).1.define s.scopes.scopes.size name a
    later.Fits G (shape ++ [origin]) ∧
      (s.world G shape).Extends (later.world G (shape ++ [origin])) ∧
      Static.Mirrors (shape ++ [origin]) later.scopes none s.scopes.scopes.size
        (⟨origin, [(name, .defined)]⟩ :: levels) ∧
      later.scopes.contains s.scopes.scopes.size name = true := by
  intro later
  have opened := fits.openScope e opens
  have inner := Static.Mirrors.grow origin fits.sized mirrors
  have inside : s.scopes.scopes.size < (s.openScope e).1.scopes.scopes.size := by
    rw [Store.openScope, Forest.size_grow]
    exact Nat.lt_succ_self _
  have bindable : (s.openScope e).1.Bindable (shape ++ [origin]) s.scopes.scopes.size name a := by
    refine ⟨inside, fun other _ here => ?_, fun _ => object, fun _ => cls⟩
    rw [← fits.sized, List.getElem?_concat_length] at here
    cases here
    exact named
  have grown := (extends_openScope e origin).trans
    (extends_define G (shape ++ [origin]) (s.openScope e).1 s.scopes.scopes.size name a)
  have names : Names (⟨origin, []⟩ :: levels) name := by
    rintro _ ⟨⟩
    exact named
  have known : later.scopes.contains s.scopes.scopes.size name = true :=
    (Forest.contains_define _ _ _ _ _ _ inside).mpr (.inl ⟨rfl, rfl⟩)
  exact ⟨opened.define bindable (value.later grown), grown,
    (inner.hide.settle inside a).stage names (.inr known) .defined, known⟩

theorem Fits.bind (fits : s.Fits G shape) {m : Method} (method : m.Fits (s.world G shape))
    {o : Object} (object : o.cls.Fits (s.world G shape)) :
    (s.bind m (.object o)).1.Fits G (shape ++ [.receiver]) ∧
      (s.world G shape).Extends ((s.bind m (.object o)).1.world G (shape ++ [.receiver])) ∧
      (s.bind m (.object o)).2.Fits ((s.bind m (.object o)).1.world G (shape ++ [.receiver])) := by
  obtain ⟨context, levels, decl, mirrors⟩ := method
  obtain ⟨bound, grown, inner, known⟩ := @Fits.openNamed _ _ _ fits _ _ mirrors .receiver True.intro
    _ (List.mem_singleton_self "this") (.object o) object (fun _ => ⟨o, rfl⟩)
    (fun other => absurd other (by decide))
  exact ⟨bound.identify, grown, context, receiverLevel :: levels, decl, inner, fun _ => known⟩

theorem Fits.openHeritage (fits : s.Fits G shape) {e : ScopeId} {levels : List Level}
    (mirrors : Static.Mirrors shape s.scopes none e levels) {base : Class}
    (value : base.Fits (s.world G shape)) :
    let later := (s.openScope e).1.define s.scopes.scopes.size "super" (.cls base)
    later.Fits G (shape ++ [.heritage]) ∧
      (s.world G shape).Extends (later.world G (shape ++ [.heritage])) ∧
      Static.Mirrors (shape ++ [.heritage]) later.scopes none s.scopes.scopes.size
        (heritageLevel :: levels) := by
  obtain ⟨opened, grown, inner, _⟩ := @Fits.openNamed _ _ _ fits _ _ mirrors .heritage True.intro
    _ (List.mem_singleton_self "super") (.cls base) value
    (fun other => absurd other (by decide)) (fun _ => ⟨base, rfl⟩)
  exact ⟨opened, grown, inner⟩

end Store

end LoxMachine
