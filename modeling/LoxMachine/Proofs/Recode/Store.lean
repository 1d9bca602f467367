import LoxMachine.Proofs.Recode.Values
import LoxMachine.Proofs.Value.Fits

namespace LoxMachine

open Static

def Static.originAt (shape : List Origin) (e : ScopeId) : Origin := shape[e]?.getD .global

theorem Static.originAt_eq {shape : List Origin} {e : ScopeId} {origin : Origin}
    (opened : shape[e]? = some origin) : originAt shape e = origin := by
  rw [originAt, opened, Option.getD_some]

variable (ϕ : Recoding) (shape : List Origin)

def Table.recodeBindings (t : Table Value) (e : ScopeId) : Table Value :=
  t.recode (ϕ.bound (originAt shape e)) (·.recode ϕ)

namespace Forest

def recode (f : Forest Value) : Forest Value :=
  ⟨f.scopes.mapIdx fun e s => ⟨s.enclosing, s.bindings.recodeBindings ϕ shape e⟩⟩

theorem size_recode (f : Forest Value) : (f.recode ϕ shape).scopes.size = f.scopes.size :=
  Array.size_mapIdx

theorem enclosing_recode (f : Forest Value) (e : ScopeId) :
    (f.recode ϕ shape).enclosing e = f.enclosing e := by
  simp only [recode, enclosing, Array.getElem?_mapIdx]
  cases f.scopes[e]? <;> rfl

theorem bindings_recode (f : Forest Value) (e : ScopeId) :
    (f.recode ϕ shape).bindings e = (f.bindings e).recodeBindings ϕ shape e := by
  simp only [recode, bindings, Array.getElem?_mapIdx]
  cases f.scopes[e]? <;> rfl

theorem outward_recode (f : Forest Value) (n : Nat) (e : ScopeId) :
    (f.recode ϕ shape).outward n e = f.outward n e :=
  outward_congr (f.enclosing_recode ϕ shape) n e

theorem ancestor_recode (f : Forest Value) (e : ScopeId) (d : Int) :
    (f.recode ϕ shape).ancestor e d = f.ancestor e d := by
  rw [ancestor, outward_recode]
  rfl

theorem grow_recode (f : Forest Value) (around : Option ScopeId) :
    (f.grow around).1.recode ϕ shape = ((f.recode ϕ shape).grow around).1 := by
  simp only [recode, grow, Array.mapIdx_push]
  rfl

theorem recode_append (f : Forest Value) (added : List Origin)
    (sized : shape.length = f.scopes.size) : f.recode ϕ (shape ++ added) = f.recode ϕ shape := by
  unfold recode
  congr 1
  apply Array.ext_getElem?
  intro e
  simp only [Array.getElem?_mapIdx]
  cases found : f.scopes[e]? with
  | none => rfl
  | some s =>
    have inside : e < shape.length := sized ▸ (Array.getElem?_eq_some_iff.mp found).1
    have same : originAt (shape ++ added) e = originAt shape e := by
      rw [originAt, originAt, List.getElem?_append_left inside]
    simp only [Option.map_some, Table.recodeBindings, same]

def Apart (f : Forest Value) (e : ScopeId) (name : String) : Prop :=
  ∀ other, f.contains e other = true →
    ϕ.bound (originAt shape e) other = ϕ.bound (originAt shape e) name → other = name

variable {ϕ shape}

theorem define_recode {f : Forest Value} {e : ScopeId} {name : String} (a : Value)
    (apart : f.Apart ϕ shape e name) :
    (f.define e name a).recode ϕ shape =
      (f.recode ϕ shape).define e (ϕ.bound (originAt shape e) name) (a.recode ϕ) := by
  unfold recode define
  congr 1
  apply Array.ext_getElem?
  intro query
  simp only [Array.getElem?_mapIdx, Array.getElem?_modify]
  by_cases same : e = query
  · subst same
    cases found : f.scopes[e]? with
    | none => simp only [↓reduceIte, Option.map_none]
    | some s =>
      have bindings : f.bindings e = s.bindings := by simp only [Forest.bindings, found]
      simp only [↓reduceIte, Option.map_some, Table.recodeBindings]
      rw [Table.put_recode a (by rw [← bindings]; exact apart)]
  · simp only [same, ↓reduceIte]

theorem get?_bindings_recode {f : Forest Value} {e : ScopeId} {name : String}
    (apart : f.Apart ϕ shape e name) :
    ((f.recode ϕ shape).bindings e).get? (ϕ.bound (originAt shape e) name) =
      ((f.bindings e).get? name).map (·.recode ϕ) := by
  rw [bindings_recode]
  exact Table.get?_recode apart

theorem get_recode {f : Forest Value} {e : ScopeId} {name : String} {a : Value}
    (apart : f.Apart ϕ shape e name) (found : f.get e name = .ok a) :
    (f.recode ϕ shape).get e (ϕ.bound (originAt shape e) name) = .ok (a.recode ϕ) := by
  unfold get at found ⊢
  rw [get?_bindings_recode apart]
  split at found
  · rename_i b here
    cases found
    rw [here]
    rfl
  · cases found

end Forest

namespace Store

variable (s : Store)

def recode : Store :=
  { s with
    scopes := s.scopes.recode ϕ shape
    fields := s.fields.map (·.recode id (·.recode ϕ))
    kept := s.kept.map (·.recode ϕ) }

theorem fieldsOf_recode (o : Object) :
    (s.recode ϕ shape).fieldsOf (o.recode ϕ) = (s.fieldsOf o).recode id (·.recode ϕ) := by
  simp only [fieldsOf, recode, Object.recode, Array.getElem?_map]
  cases s.fields[o.id]? <;> rfl

theorem openScope_recode (e : ScopeId) (origin : Origin)
    (sized : shape.length = s.scopes.scopes.size) :
    (s.recode ϕ shape).openScope e =
      ((s.openScope e).1.recode ϕ (shape ++ [origin]), (s.openScope e).2) := by
  have scopes := Forest.grow_recode ϕ (shape ++ [origin]) s.scopes (some e)
  rw [Forest.recode_append ϕ shape s.scopes [origin] sized] at scopes
  refine Prod.ext ?_ (Forest.size_recode ϕ shape s.scopes)
  simp only [openScope, recode, scopes]

theorem identify_recode :
    (s.recode ϕ shape).identify = (s.identify.1.recode ϕ shape, s.identify.2) := rfl

theorem instantiate_recode (c : Class) :
    (s.recode ϕ shape).instantiate (c.recode ϕ) =
      ((s.instantiate c).1.recode ϕ shape, (s.instantiate c).2.recode ϕ) := by
  simp only [instantiate, recode, Object.recode, Array.map_push, Array.size_map]
  rfl

theorem setField_recode (o : Object) (name : String) (a : Value) :
    (s.recode ϕ shape).setField (o.recode ϕ) name (a.recode ϕ) =
      (s.setField o name a).recode ϕ shape := by
  simp only [setField, recode, Object.recode]
  congr 1
  apply Array.ext_getElem?
  intro i
  simp only [Array.getElem?_modify, Array.getElem?_map]
  split
  · cases s.fields[i]? with
    | none => rfl
    | some table =>
      simp only [Option.map_some]
      rw [Table.put_recode_id]
  · rfl

variable {ϕ shape s}

theorem define_recode {e : ScopeId} {name : String} (a : Value)
    (apart : s.scopes.Apart ϕ shape e name) :
    (s.recode ϕ shape).define e (ϕ.bound (originAt shape e) name) (a.recode ϕ) =
      (s.define e name a).recode ϕ shape := by
  simp only [define, recode, Forest.define_recode a apart]

theorem Fits.apart {G : Occurrence → Prop} (fits : s.Fits G shape) {e : ScopeId} {name : String}
    (named : ∀ origin, e ≠ Store.globals → shape[e]? = some origin → name ∈ origin.names) :
    s.scopes.Apart ϕ shape e name := by
  intro other bound same
  by_cases top : e = Store.globals
  · subst top
    have opened : originAt shape Store.globals = .global := originAt_eq fits.global
    rwa [opened, ϕ.bound_global, ϕ.bound_global] at same
  · obtain ⟨origin, opened⟩ : ∃ origin, shape[e]? = some origin := by
      have inside := Forest.lt_size_of_contains bound
      rw [← fits.sized] at inside
      exact ⟨shape[e], List.getElem?_eq_getElem inside⟩
    rw [originAt_eq opened] at same
    exact ϕ.injective origin other (fits.named e other origin top bound opened) name
      (named origin top opened) same

theorem Discreet.callHost (discreet : s.Discreet) (f : Native) (arguments : List Value) :
    (s.recode ϕ shape).callHost f (arguments.map (·.recode ϕ)) =
      ((s.callHost f arguments).1.recode ϕ shape, (s.callHost f arguments).2) := by
  have views : arguments.map Value.view = (arguments.map (·.recode ϕ)).map Value.view := by
    rw [List.map_map]
    exact List.map_congr_left fun a _ => (a.view_recode ϕ).symm
  unfold Store.callHost
  simp only [recode]
  cases found : s.host[f.index]? with
  | none => rfl
  | some entry =>
    simp only [List.map_append]
    rw [(discreet f.index entry found entry.calls _ _ views).1]

theorem recollect_recode {choose : List Value → Nat} {links : List Link}
    (discreet : (HostReply.recalled choose links).Discreet) :
    (s.recode ϕ shape).recollect choose links = (s.recollect choose links).recode ϕ := by
  have same : (fun a : Value => a.recode ϕ) = fun a => a.mapCode (·.recode ϕ) :=
    funext fun a => a.recode_eq_mapCode ϕ
  have fields : ∀ o : Object, (s.recode ϕ shape).fieldsOf (o.mapCode (·.recode ϕ)) =
      (s.fieldsOf o).recode id (·.mapCode (·.recode ϕ)) := by
    intro o
    rw [← same, ← s.fieldsOf_recode ϕ shape o]
    rfl
  have kept : (s.recode ϕ shape).kept = s.kept.map (·.mapCode (·.recode ϕ)) := by
    rw [← same]
    rfl
  rw [Value.recode_eq_mapCode]
  exact recollect_mapCode (keepsSignature_recode ϕ) fields kept discreet

end Store

end LoxMachine
