import LoxMachine.Proofs.Machine.Extent
import LoxMachine.Proofs.Reach.Confined
import LoxMachine.Proofs.Recode.Step

namespace LoxMachine.Machine

variable {c : Setting} {m : Machine}

/-- The state with other frames below its own. -/
def above (m : Machine) (waiting : List Frame) : Machine :=
  { m with frames := m.frames ++ waiting }

/-- The state without the frames that wait for what is at hand. -/
def alone (m : Machine) : Machine := { m with frames := [] }

/-- An expression or a statement is about to begin. -/
inductive AtPhrase (m : Machine) : Prop
  | expression (e : Expr) (control : m.control = .evaluate e)
  | statement (s : Stmt) (control : m.control = .execute s)

theorem framesWithin_all (e : ScopeId) (frames : List Frame) :
    FramesWithin (fun _ => True) e frames := by
  induction frames generalizing e with
  | nil => exact True.intro
  | cons frame rest ih =>
    refine ⟨?_, ih _⟩
    cases frame <;> simp [Frame.Within, Value.Within]

theorem within_all (m : Machine) : m.Within fun _ => True := by
  refine ⟨⟨⟨True.intro, ?_, ?_, ?_, ?_, ?_⟩, framesWithin_all _ _⟩, ?_⟩
  · exact fun _ _ => True.intro
  · exact fun _ _ _ _ => True.intro
  · exact fun _ _ _ _ _ _ => True.intro
  · exact fun _ _ _ _ _ _ => True.intro
  · exact fun _ _ _ _ _ _ _ _ _ => True.intro
  · cases m.control <;> simp [Control.Within, Value.Within]

theorem beside_all (s t : Store) : s.beside (fun _ => True) t = s := by
  have kept : ∀ {α : Type} (xs : Array α), xs.mapIdx (fun _ x => x) = xs := by
    intro α xs
    apply Array.ext_getElem?
    intro i
    rw [Array.getElem?_mapIdx, Option.map_id']
  simp only [Store.beside, ↓reduceIte, kept]

theorem amid_all (m : Machine) (t : Store) (waiting : List Frame) :
    m.amid (fun _ => True) t waiting = m.above waiting := by
  simp only [amid, above, beside_all]

theorem step_above (going : m.isOver = false) (waiting : List Frame) :
    step c (m.above waiting) = (step c m).above waiting := by
  have same := (confined_step (c := c) m.within_all going m.store waiting).1
  rwa [amid_all, amid_all] at same

theorem run_above (c : Setting) (m : Machine) (waiting : List Frame) (n : Nat) :
    ∃ k ≤ n, run c k (m.above waiting) = (run c n m).above waiting := by
  obtain ⟨k, early, same⟩ := run_amid (c := c) m.within_all m.store waiting n
  rw [amid_all, amid_all] at same
  exact ⟨k, early, same⟩

def here (m : Machine) : Extent := ⟨m.scope, 0, fun _ _ => True, True⟩

theorem store_here (m : Machine) (s : Store) : s.Keeps m.here :=
  ⟨Nat.zero_le _, fun _ old => absurd old (Nat.not_lt_zero _)⟩

theorem admits_here (m : Machine) (e : ScopeId) (declared : List Token) :
    m.here.Admits e declared :=
  Extent.Admits.fresh (Nat.zero_le e) declared

theorem frames_of_over (halted : m.isOver = true) : m.frames = [] := by
  obtain ⟨control, frames, scope, depth, store, printed, classes⟩ := m
  cases control <;> first | exact List.isEmpty_iff.mp halted | cases halted

theorem Keeps.home {x : Extent} (keeps : m.Keeps x) (halted : m.isOver = true) :
    m.scope = x.home := by
  obtain ⟨takesValue, _, ready⟩ := keeps
  have frames := ready.frames
  rwa [frames_of_over halted] at frames

theorem scope_of_keeps {k : Machine} (keeps : k.Keeps m.here) (n : Nat)
    (halted : (run c n k).isOver = true) : (run c n k).scope = m.scope := by
  have last : (run c n k).Keeps m.here := by
    apply keeps.run
    -- every scope counts as new, so nothing is asked of assignments
    intro j _ _ e name _
    exact .inr (Nat.zero_le e)
  exact last.home halted

theorem scope_of_phrase (phrase : m.AtPhrase) (n : Nat)
    (halted : (run c n m.alone).isOver = true) : (run c n m.alone).scope = m.scope := by
  apply scope_of_keeps _ n halted
  cases phrase with
  | expression e control =>
    refine ⟨true, ?_, m.store_here _, rfl⟩
    rw [alone, control]
    exact ⟨rfl, m.admits_here _ _⟩
  | statement s control =>
    refine ⟨false, ?_, m.store_here _, rfl⟩
    rw [alone, control]
    exact ⟨rfl, m.admits_here _ _⟩

theorem scope_of_sequence (body : List Stmt) (control : m.control = .done)
    (frames : m.frames = [.sequence body]) (n : Nat) (halted : (run c n m).isOver = true) :
    (run c n m).scope = m.scope := by
  apply scope_of_keeps _ n halted
  refine ⟨false, ?_, m.store_here _, ?_⟩
  · rw [control]
    rfl
  · rw [frames]
    exact ⟨rfl, m.admits_here _ _, rfl⟩

end LoxMachine.Machine
