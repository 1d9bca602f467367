import LoxMachine.Proofs.Number.Order
import LoxMachine.Value.Basic

namespace LoxMachine

inductive ValueKind where
  | nil | bool | number | string | closure | native | cls | object
deriving DecidableEq

/-- What equality looks at. -/
inductive Essence where
  | nil
  | bool (b : Bool)
  | number (x : ℚ)
  | string (s : String)
  | closure (identity : Identity)
  | native (index : Nat)
  | cls (identity : Identity)
  | object (id : ObjectId)

def Essence.kind : Essence → ValueKind
  | nil => .nil
  | bool _ => .bool
  | number _ => .number
  | string _ => .string
  | closure _ => .closure
  | native _ => .native
  | cls _ => .cls
  | object _ => .object

namespace Value

def kind : Value → ValueKind
  | nil => .nil
  | bool _ => .bool
  | number _ => .number
  | string _ => .string
  | closure _ => .closure
  | native _ => .native
  | cls _ => .cls
  | object _ => .object

def essence : Value → Essence
  | nil => .nil
  | bool b => .bool b
  | number n => .number n.value
  | string s => .string s
  | closure f => .closure f.identity
  | native f => .native f.index
  | cls c => .cls c.identity
  | object o => .object o.id

theorem kind_essence (v : Value) : v.essence.kind = v.kind := by
  cases v <;> rfl

theorem isEqual_iff (v w : Value) : v.isEqual w = true ↔ v.essence = w.essence := by
  cases v <;> cases w <;> simp [isEqual, essence, Number.sameValue_iff]

theorem isEqual_equivalence : Equivalence fun v w : Value => v.isEqual w = true where
  refl v := (isEqual_iff v v).mpr rfl
  symm {v w} same := (isEqual_iff w v).mpr ((isEqual_iff v w).mp same).symm
  trans {u v w} first second :=
    (isEqual_iff u w).mpr (((isEqual_iff u v).mp first).trans ((isEqual_iff v w).mp second))

theorem kind_of_isEqual {v w : Value} (same : v.isEqual w = true) : v.kind = w.kind := by
  rw [← kind_essence, (isEqual_iff v w).mp same, kind_essence]

end Value

end LoxMachine
