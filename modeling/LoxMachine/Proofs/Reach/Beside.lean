import LoxMachine.Proofs.Reach.Cells

namespace LoxMachine.Store

section Exchange

variable {α : Type} {p : Nat → Prop} [DecidablePred p] {xs ys : Array α}

theorem exchange_eq (size : ys.size = xs.size) (same : ∀ i, p i → ys[i]? = xs[i]?) :
    (xs.mapIdx fun i x => if p i then x else ys[i]?.getD x) = ys := by
  apply Array.ext_getElem?
  intro i
  rw [Array.getElem?_mapIdx]
  by_cases here : p i
  · simp only [here, ↓reduceIte, Option.map_id', same i here]
  · by_cases old : i < xs.size
    · simp only [here, ↓reduceIte, Array.getElem?_eq_getElem old,
        Array.getElem?_eq_getElem (size ▸ old), Option.map_some, Option.getD_some]
    · rw [Array.getElem?_eq_none (Nat.le_of_not_lt old),
        Array.getElem?_eq_none (size ▸ Nat.le_of_not_lt old), Option.map_none]

theorem exchange_modify {i : Nat} (here : p i) (change : α → α) :
    (xs.mapIdx fun i x => if p i then x else ys[i]?.getD x).modify i change =
      (xs.modify i change).mapIdx fun i x => if p i then x else ys[i]?.getD x := by
  apply Array.ext_getElem?
  intro j
  simp only [Array.getElem?_modify, Array.getElem?_mapIdx]
  by_cases same : i = j
  · subst same
    simp only [here, ↓reduceIte, Option.map_id']
  · simp only [same, ↓reduceIte]

end Exchange

/-- The stores hold the same in the cell. -/
def SameAt (s t : Store) : Cell → Prop
  | .scope e => t.scopes.scopes[e]? = s.scopes.scopes[e]?
  | .object o => t.fields[o]? = s.fields[o]?
  | .host index => t.host[index]? = s.host[index]?

/-- Two stores that have the same cells and hold the same inside of a region. -/
structure Alike (P : Cell → Prop) (s t : Store) : Prop where
  kept : t.kept = s.kept
  nextIdentity : t.nextIdentity = s.nextIdentity
  scopes : t.scopes.scopes.size = s.scopes.scopes.size
  objects : t.fields.size = s.fields.size
  hosts : t.host.size = s.host.size
  same : ∀ p, P p → s.SameAt t p

def beside (s : Store) (P : Cell → Prop) [DecidablePred P] (t : Store) : Store :=
  { s with
    scopes := ⟨s.scopes.scopes.mapIdx fun e scope =>
      if P (.scope e) then scope else t.scopes.scopes[e]?.getD scope⟩
    fields := s.fields.mapIdx fun o table =>
      if P (.object o) then table else t.fields[o]?.getD table
    host := s.host.mapIdx fun index entry =>
      if P (.host index) then entry else t.host[index]?.getD entry }

variable {P : Cell → Prop} [DecidablePred P] {s t : Store}

theorem size_beside : (s.beside P t).scopes.scopes.size = s.scopes.scopes.size :=
  Array.size_mapIdx

theorem objects_beside : (s.beside P t).fields.size = s.fields.size := Array.size_mapIdx

theorem hosts_beside : (s.beside P t).host.size = s.host.size := Array.size_mapIdx

theorem scope_beside {e : ScopeId} (here : P (.scope e)) :
    (s.beside P t).scopes.scopes[e]? = s.scopes.scopes[e]? := by
  simp only [beside, Array.getElem?_mapIdx, here, ↓reduceIte, Option.map_id']

theorem table_beside {o : ObjectId} (here : P (.object o)) :
    (s.beside P t).fields[o]? = s.fields[o]? := by
  simp only [beside, Array.getElem?_mapIdx, here, ↓reduceIte, Option.map_id']

theorem host_beside {index : Nat} (here : P (.host index)) :
    (s.beside P t).host[index]? = s.host[index]? := by
  simp only [beside, Array.getElem?_mapIdx, here, ↓reduceIte, Option.map_id']

theorem alike_beside : s.Alike P (s.beside P t) where
  kept := rfl
  nextIdentity := rfl
  scopes := size_beside
  objects := objects_beside
  hosts := hosts_beside
  same p here := by
    cases p with
    | scope e => exact scope_beside here
    | object o => exact table_beside here
    | host index => exact host_beside here

omit [DecidablePred P] in
theorem alike_refl (s : Store) : s.Alike P s :=
  ⟨rfl, rfl, rfl, rfl, rfl, fun p _ => by cases p <;> rfl⟩

theorem sameAt_beside {p : Cell} (old : s.Has p) (there : t.Has p) (outside : ¬ P p) :
    t.SameAt (s.beside P t) p := by
  cases p <;>
    simp only [SameAt, beside, Array.getElem?_mapIdx, outside, ↓reduceIte,
      Array.getElem?_eq_getElem old, Array.getElem?_eq_getElem there, Option.map_some,
      Option.getD_some]

theorem beside_of_alike (alike : s.Alike P t) : s.beside P t = t := by
  obtain ⟨⟨scopes⟩, fields, host, kept, next⟩ := t
  cases alike.kept
  cases alike.nextIdentity
  have scopes := exchange_eq alike.scopes fun e => alike.same (.scope e)
  have fields := exchange_eq alike.objects fun o => alike.same (.object o)
  have host := exchange_eq alike.hosts fun i => alike.same (.host i)
  simp only [beside, scopes, fields, host]

theorem bindings_beside {e : ScopeId} (here : P (.scope e)) :
    (s.beside P t).scopes.bindings e = s.scopes.bindings e := by
  simp only [Forest.bindings, scope_beside here]

theorem enclosing_beside {e : ScopeId} (here : P (.scope e)) :
    (s.beside P t).scopes.enclosing e = s.scopes.enclosing e := by
  simp only [Forest.enclosing, scope_beside here]

theorem get_beside {e : ScopeId} (here : P (.scope e)) (name : String) :
    (s.beside P t).scopes.get e name = s.scopes.get e name := by
  simp only [Forest.get, bindings_beside here]

theorem contains_beside {e : ScopeId} (here : P (.scope e)) (name : String) :
    (s.beside P t).scopes.contains e name = s.scopes.contains e name := by
  simp only [Forest.contains, bindings_beside here]

theorem fieldsOf_beside {o : Object} (here : P (.object o.id)) :
    (s.beside P t).fieldsOf o = s.fieldsOf o := by
  simp only [fieldsOf, table_beside here]

section Within

variable (within : s.Within P)

include within

theorem outward_beside (n : Nat) {e : ScopeId} (here : P (.scope e)) :
    (s.beside P t).scopes.outward n e = s.scopes.outward n e := by
  induction n generalizing e with
  | zero => rfl
  | succ n ih =>
    simp only [Forest.outward, enclosing_beside here]
    cases around : s.scopes.enclosing e with
    | none => rfl
    | some outer => exact ih (within.enclosing e outer here around)

theorem ancestor_beside (d : Int) {e : ScopeId} (here : P (.scope e)) :
    (s.beside P t).scopes.ancestor e d = s.scopes.ancestor e d := by
  simp only [Forest.ancestor, outward_beside within _ here]

theorem getAt_beside (d : Int) {e : ScopeId} (here : P (.scope e)) (name : String) :
    (s.beside P t).scopes.getAt e d name = s.scopes.getAt e d name := by
  simp only [Forest.getAt, ancestor_beside within d here]
  cases reached : s.scopes.ancestor e d with
  | error _ => rfl
  | ok target => exact get_beside (within.ancestor here reached) name

end Within

theorem define_beside {e : ScopeId} (here : P (.scope e)) (name : String) (a : Value) :
    (s.beside P t).define e name a = (s.define e name a).beside P t := by
  simp only [beside, Store.define, Forest.define, exchange_modify (p := fun e => P (.scope e)) here]

theorem setField_beside {o : Object} (here : P (.object o.id)) (name : String) (a : Value) :
    (s.beside P t).setField o name a = (s.setField o name a).beside P t := by
  simp only [beside, setField, exchange_modify (p := fun o => P (.object o)) here]

section Fresh

variable (within : s.Within P)

include within

theorem openScope_beside (e : ScopeId) :
    (s.beside P t).openScope e = ((s.openScope e).1.beside P t, (s.openScope e).2) := by
  simp only [openScope, Forest.grow, beside, Array.mapIdx_push, Array.size_mapIdx,
    within.freshScope, ↓reduceIte]

theorem instantiate_beside (c : Class) :
    (s.beside P t).instantiate c = ((s.instantiate c).1.beside P t, (s.instantiate c).2) := by
  simp only [instantiate, beside, Array.mapIdx_push, Array.size_mapIdx, within.freshObject,
    ↓reduceIte]

theorem bind_beside (method : Method) (receiver : Value) :
    (s.beside P t).bind method receiver =
      ((s.bind method receiver).1.beside P t, (s.bind method receiver).2) := by
  have here : P (.scope (s.openScope method.scope).2) := within.freshScope
  simp only [Store.bind, openScope_beside within, define_beside here]
  rfl

end Fresh

theorem identify_beside : (s.beside P t).identify = (s.identify.1.beside P t, s.identify.2) := rfl

theorem callHost_beside {f : Native} (here : P (.host f.index)) (arguments : List Value) :
    (s.beside P t).callHost f arguments =
      ((s.callHost f arguments).1.beside P t, (s.callHost f arguments).2) := by
  simp only [callHost, host_beside here]
  cases found : s.host[f.index]? with
  | none => rfl
  | some entry =>
    dsimp only [beside]
    rw [exchange_modify (p := fun i => P (.host i)) here]

theorem recollect_beside (within : s.Within P) (kept : ∀ a ∈ s.kept, a.Within P)
    (choose : List Value → Nat) (links : List Link) :
    (s.beside P t).recollect choose links = s.recollect choose links := by
  have first : (s.kept[choose s.kept]?.getD .nil).Within P := by
    cases found : s.kept[choose s.kept]? with
    | none => exact within_nil
    | some a => exact kept a (List.mem_of_getElem? found)
  unfold recollect
  change links.foldl _ (s.kept[choose s.kept]?.getD .nil) = _
  generalize s.kept[choose s.kept]?.getD .nil = a at first
  induction links generalizing a with
  | nil => rfl
  | cons link rest ih =>
    have same : (s.beside P t).follow a link = s.follow a link := by
      cases link with
      | field name =>
        cases a with
        | object o => simp only [follow, fieldsOf_beside (first _ (.object o))]
        | _ => rfl
      | cls | superclass => cases a <;> rfl
    rw [List.foldl_cons, List.foldl_cons, same]
    exact ih _ (within.follow first link)

end LoxMachine.Store
