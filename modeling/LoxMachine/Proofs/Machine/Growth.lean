import LoxMachine.Proofs.Machine.Changes
import LoxMachine.Proofs.Scope.Mirror

namespace LoxMachine

namespace Store

theorem Change.extends {s t : Store} (change : s.Change t) :
    Forest.Extends s.scopes t.scopes := by
  cases change with
  | define e name a => exact Forest.Extends.define s.scopes e name a
  | openScope enclosing => exact Forest.Extends.grow s.scopes (some enclosing)
  | identify | instantiate | setField => exact Forest.Extends.refl _
  | callHost f arguments =>
    have same : (s.callHost f arguments).1.scopes = s.scopes := by
      unfold Store.callHost
      split <;> rfl
    rw [same]
    exact Forest.Extends.refl _

theorem Becomes.extends {s t : Store} (becomes : s.Becomes t) :
    Forest.Extends s.scopes t.scopes := by
  induction becomes with
  | refl => exact Forest.Extends.refl _
  | tail _ change ih => exact ih.trans change.extends

end Store

namespace Machine

def Grows (m n : Machine) : Prop := Forest.Extends m.store.scopes n.store.scopes

theorem Grows.trans {m n k : Machine} (first : Grows m n) (second : Grows n k) : Grows m k :=
  Forest.Extends.trans first second

theorem Changes.grows {m n : Machine} (changes : m.Changes n) : Grows m n :=
  Store.Becomes.extends changes

theorem grows_step (c : Setting) (m : Machine) : Grows m (step c m) := (changes_step c m).grows

theorem grows_run (c : Setting) (m : Machine) (n : Nat) : Grows m (run c n m) :=
  (changes_run c m n).grows

end Machine

end LoxMachine
