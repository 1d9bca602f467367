import LoxMachine.Proofs.Machine.Alone
import LoxMachine.Proofs.Session.Reachable
import Mathlib.Logic.Relation

namespace LoxMachine

/-- The steps of the run sufficed for it to come to an end. -/
def Run.IsOver (r : Run) : Prop := r.outcome ≠ .unfinished

instance (r : Run) : Decidable r.IsOver :=
  match r with
  | ⟨.unfinished, _, _⟩ => isFalse fun ended => ended rfl
  | ⟨.value _, _, _⟩ | ⟨.done, _, _⟩ | ⟨.returned _, _, _⟩ | ⟨.failed _, _, _⟩ => isTrue nofun

namespace Session

/-- What a host does with a session. A run comes to an end, in whatever way. -/
inductive Advances (s : Session) : Session → Prop
  | source (limits : Limits) (text : String)
      (ended : ∀ r, (s.run limits text).2 = .ok r → r.IsOver) : Advances s (s.run limits text).1
  | program (limits : Limits) (program : List Stmt) (distances : Distances)
      (ended : (s.interpret limits program distances).2.IsOver) :
      Advances s (s.interpret limits program distances).1
  | expression (limits : Limits) (e : Expr) (ended : (s.evaluate limits e).2.IsOver) :
      Advances s (s.evaluate limits e).1
  | native (name : String) (arity : Nat) (function : HostFunction) :
      Advances s (s.defineNative name arity function).1
  | define (name : String) (a : Value) : Advances s (s.setGlobal name a)
  | entrust (a : Value) : Advances s (s.entrust a)

theorem scope_of_interpret (s : Session) (limits : Limits) (program : List Stmt)
    (distances : Distances) (ended : (s.interpret limits program distances).2.IsOver) :
    (s.interpret limits program distances).1.scope = s.scope :=
  Machine.scope_of_sequence program rfl rfl limits.steps (over_of_outcome ended)

theorem scope_of_evaluate (s : Session) (limits : Limits) (e : Expr)
    (ended : (s.evaluate limits e).2.IsOver) : (s.evaluate limits e).1.scope = s.scope :=
  Machine.scope_of_phrase (m := s.machine (.evaluate e) []) (.expression e rfl) limits.steps
    (over_of_outcome ended)

theorem scope_of_run (s : Session) (limits : Limits) (text : String)
    (ended : ∀ r, (s.run limits text).2 = .ok r → r.IsOver) :
    (s.run limits text).1.scope = s.scope := by
  have read : (s.read text).1.scope = s.scope := by rw [read_eq]
  unfold Session.run at ended ⊢
  split
  · rename_i t rejection rejected
    rw [rejected] at read
    exact read
  · rename_i t program accepted
    rw [accepted] at read
    simp only [accepted] at ended
    split
    · exact read
    · rename_i ds resolved
      simp only [resolved] at ended
      rw [← read]
      exact scope_of_interpret t limits program ds (ended _ rfl)

theorem Advances.scope_eq {s t : Session} (advances : Advances s t) : t.scope = s.scope := by
  cases advances with
  | source limits text ended => exact scope_of_run s limits text ended
  | program limits program distances ended =>
    exact scope_of_interpret s limits program distances ended
  | expression limits e ended => exact scope_of_evaluate s limits e ended
  | native name arity function => rfl
  | define name a => rfl
  | entrust a => rfl

/-- However the steps of a session end, the scope that was current before them is current after
them. The same holds of every expression and statement in a run, in whatever state and with whatever
distances: its run by itself is its run above the frames that wait for it, and ends in its scope. -/
theorem scope_kept :
    (∀ s t : Session, Relation.ReflTransGen Advances s t → t.scope = s.scope) ∧
    ∀ (c : Setting) (m : Machine) (n : Nat), m.AtPhrase →
      let last := Machine.run c n m.alone
      (∃ k ≤ n, Machine.run c k m = last.above m.frames) ∧
      (last.isOver = true → last.scope = m.scope) := by
  constructor
  · intro s t steps
    induction steps with
    | refl => rfl
    | tail earlier last ih => exact last.scope_eq.trans ih
  · intro c m n phrase last
    exact ⟨Machine.run_above c m.alone m.frames n, Machine.scope_of_phrase phrase n⟩

/-- In the scope of a block, what is called in a further block is no function. -/
def failingBlock : Machine where
  control := .execute (.block 4 [.expression 3
    (.call 2 (.literal 1 .nil) ⟨.symbol .rightParen, ")", 1⟩ [])])
  frames := [.sequence [], .leaveBlock 0]
  scope := 1
  depth := 0
  store := ⟨⟨#[⟨none, []⟩, ⟨some 0, []⟩]⟩, #[], #[], [], 1⟩
  printed := []
  classes := []

/-- A function fails in a block of its body. Then a name is read at a distance that leads out of all
scopes. -/
theorem scope_kept_failing :
    let s := empty "main"
    let text := "fun f() { { nil(); } } f();"
    let t := (s.run ⟨100, 9⟩ text).1
    let use : Stmt := .print 10 (.read ⟨9, ⟨.identifier, "f", 1⟩⟩)
    let u := (t.interpret ⟨9, 9⟩ [use] [(9, 2)]).1
    (Relation.ReflTransGen Advances s u ∧ u.scope = Store.globals) ∧
      let last := Machine.run ⟨[], 9⟩ 9 failingBlock.alone
      last.isOver = true ∧ last.scope = 1 ∧
        ∃ k ≤ 9, Machine.run ⟨[], 9⟩ k failingBlock = last.above failingBlock.frames := by
  intro s text t use u
  have ended : (s.run ⟨100, 9⟩ text).2.toOption.all (decide ·.IsOver) = true := by decide +kernel
  have first : Advances s t := by
    apply Advances.source
    intro r result
    rw [result] at ended
    exact of_decide_eq_true ended
  have second : Advances t u := .program _ _ _ (by decide +kernel)
  have steps : Relation.ReflTransGen Advances s u := .tail (.single first) second
  have halted : (Machine.run ⟨[], 9⟩ 9 failingBlock.alone).isOver = true := by decide +kernel
  obtain ⟨within, home⟩ := scope_kept.2 ⟨[], 9⟩ failingBlock 9 (.statement _ rfl)
  exact ⟨⟨steps, scope_kept.1 s u steps⟩, halted, home halted, within⟩

end Session

end LoxMachine
