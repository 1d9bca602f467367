import LoxMachine.Proofs.Machine.TopLevel
import LoxMachine.Proofs.Session.ScopeMirror

namespace LoxMachine.Session

open Static Machine

variable {programs : List (List Stmt)} {held : List Value} {s : Session} {source : String}
  {program : List Stmt} {ds : Distances}

section Point

variable (reached : Reachable programs held s) (accepted : s.Accepts source program ds)
  (depth : Nat)

include reached accepted

theorem atTop_of_accepted (n : Nat) : (s.point depth program ds n).AtTop program := by
  have sound := sound_of_reachable reached
  induction n with
  | zero =>
    obtain ⟨shape, fits, _⟩ := accepted.fits sound depth 0
    exact within_ended (s.machine .done []) (List.suffix_refl program)
      fits.store.inside sound.top rfl (.inl rfl)
  | succ n ih =>
    obtain ⟨shape, fits, _⟩ := accepted.fits sound depth n
    unfold point at ih fits ⊢
    rw [run_succ]
    exact (atTop_step ih (accepted.resolves sound) fits).1

theorem namesAdded_of_accepted (n : Nat) :
    NamesAdded program (s.point depth program ds n) (s.point depth program ds (n + 1)) := by
  have sound := sound_of_reachable reached
  obtain ⟨shape, fits, _⟩ := accepted.fits sound depth n
  have top := atTop_of_accepted reached accepted depth n
  unfold point at top fits ⊢
  rw [run_succ]
  exact (atTop_step top (accepted.resolves sound) fits).2

theorem namesKept_of_first {m first : Machine} (waiting : List Frame)
    (keeps : first.Keeps m.closed) (grows : m.Grows first)
    (inside : ∀ j, ∃ n, s.point depth program ds n =
      (Machine.run (s.setting depth ds) j first).above waiting) (j : Nat) :
    m.NamesKept (Machine.run (s.setting depth ds) j first) := by
  have sound := sound_of_reachable reached
  apply namesKept_of_keeps
  · apply keeps_closed keeps (accepted.resolves sound)
    intro j
    obtain ⟨n, same⟩ := inside j
    obtain ⟨shape, fits, _⟩ := accepted.fits sound depth n
    exact ⟨shape, same ▸ fits⟩
  · exact grows.trans (grows_run _ _ j)

theorem namesKept_of_block {n : Nat} {id : NodeId} {body : List Stmt}
    (control : (s.point depth program ds n).control = .execute (.block id body)) (j : Nat) :
    let m := s.point depth program ds n
    let inside := Machine.run (s.setting depth ds) j m.alone
    m.NamesKept inside ∧ ∃ k ≤ j, s.point depth program ds (n + k) = inside.above m.frames := by
  intro m inside
  have again : ∀ j, ∃ k ≤ j, s.point depth program ds (n + k) =
      (Machine.run (s.setting depth ds) j m.alone).above m.frames := by
    intro j
    obtain ⟨k, early, same⟩ := run_above (s.setting depth ds) m.alone m.frames j
    refine ⟨k, early, ?_⟩
    unfold point
    rw [run_add]
    exact same
  refine ⟨?_, again j⟩
  cases j with
  | zero => exact fun _ _ _ => rfl
  | succ j =>
    have going : m.alone.isOver = false := by
      rw [isOver, alone, control]
    have begun : ∀ j, Machine.run (s.setting depth ds) (j + 1) m.alone =
        Machine.run (s.setting depth ds) j (Machine.step (s.setting depth ds) m.alone) := by
      intro j
      rw [Machine.run, going, if_neg Bool.false_ne_true]
    change m.NamesKept (Machine.run (s.setting depth ds) (j + 1) m.alone)
    rw [begun j]
    apply namesKept_of_first reached accepted depth m.frames (keeps_block control)
      (grows_step _ m.alone)
    intro j
    obtain ⟨k, _, same⟩ := again (j + 1)
    exact ⟨n + k, begun j ▸ same⟩

theorem namesKept_of_call {n : Nat} {base : Machine} {target : Callable} {arguments : List Value}
    (calls : (s.point depth program ds n).Calls base target arguments) (j : Nat) :
    let inside := callAlone (s.setting depth ds) base target arguments j
    base.NamesKept inside ∧
      ∃ k ≤ j, s.point depth program ds (n + (k + 1)) = inside.above base.frames := by
  intro inside
  have again : ∀ j, ∃ k ≤ j, s.point depth program ds (n + (k + 1)) =
      (callAlone (s.setting depth ds) base target arguments j).above base.frames := by
    intro j
    obtain ⟨k, early, same⟩ := run_of_calls (c := s.setting depth ds) calls j
    refine ⟨k, early, ?_⟩
    unfold point at same ⊢
    rw [run_add]
    exact same
  refine ⟨?_, again j⟩
  apply namesKept_of_first reached accepted depth base.frames
    (keeps_invoke base target arguments) (grows_invoke base.alone target arguments)
  intro j
  obtain ⟨k, _, same⟩ := again j
  exact ⟨n + (k + 1), same⟩

end Point

/-- At every point of a block or a call of an accepted program, and so however it ends, the scopes
that were there before bind the names that they bound before. A new global name is bound by the
declaration of a variable, a function or a class at the top level, and by no other step. -/
theorem names_kept (reached : Reachable programs held s) (accepted : s.Accepts source program ds)
    (depth n : Nat) :
    let c := s.setting depth ds
    let m := s.point depth program ds n
    (∀ id body, m.control = .execute (.block id body) → ∀ j,
      let inside := Machine.run c j m.alone
      m.NamesKept inside ∧ ∃ k ≤ j, s.point depth program ds (n + k) = inside.above m.frames) ∧
    (∀ base target arguments, m.Calls base target arguments → ∀ j,
      let inside := callAlone c base target arguments j
      base.NamesKept inside ∧
        ∃ k ≤ j, s.point depth program ds (n + (k + 1)) = inside.above base.frames) ∧
    ∀ name, (s.point depth program ds (n + 1)).store.scopes.contains Store.globals name = true →
      m.store.scopes.contains Store.globals name = true ∨ m.Adds program name := by
  intro c m
  refine ⟨?_, ?_, namesAdded_of_accepted reached accepted depth n⟩
  · intro id body control
    exact namesKept_of_block reached accepted depth control
  · intro base target arguments calls
    exact namesKept_of_call reached accepted depth calls

def assigningProgram : List Stmt :=
  [.var 2 (firstLine "b") (some (.literal 1 .nil)),
    .block 12 [
      .function (.mk 7 (firstLine "f") [firstLine "a"]
        [.expression 6 (.assign 5 (firstLine "b") (.read ⟨4, firstLine "a"⟩))]),
      .expression 11 (.call 10 (.read ⟨8, firstLine "f"⟩) ⟨.symbol .rightParen, ")", 1⟩
        [.literal 9 (.bool true)])]]

def assigningPoint (n : Nat) : Machine :=
  (empty "main").point 9 assigningProgram [(4, 0), (8, 0)] n

/-- The name is bound by the variable, and neither the block nor the call binds a further one. -/
theorem names_kept_assigning :
    let c := (empty "main").setting 9 [(4, 0), (8, 0)]
    (empty "main").Accepts "var b = nil; { fun f(a) { b = a; } f(true); }" assigningProgram
        [(4, 0), (8, 0)] ∧
      (assigningPoint 3).Adds assigningProgram "b" ∧
      (∀ j, (assigningPoint 5).NamesKept (Machine.run c j (assigningPoint 5).alone)) ∧
      ∃ base f, (assigningPoint 14).Calls base (.closure f) [.bool true] ∧
        ∀ j, base.NamesKept (callAlone c base (.closure f) [.bool true] j) := by
  have accepted : (empty "main").Accepts "var b = nil; { fun f(a) { b = a; } f(true); }"
      assigningProgram [(4, 0), (8, 0)] := ⟨by rfl, by rfl⟩
  have bound : (assigningPoint (3 + 1)).store.scopes.contains Store.globals "b" = true := by
    decide +kernel
  have unbound : (assigningPoint 3).store.scopes.contains Store.globals "b" ≠ true := by
    decide +kernel
  have block : ∃ id body, (assigningPoint 5).control = .execute (.block id body) := ⟨_, _, rfl⟩
  have called : ∃ base f, (assigningPoint 14).Calls base (.closure f) [.bool true] :=
    ⟨_, _, @Calls.last _ (.bool true) _ _ [] _ (.closure _) rfl rfl rfl⟩
  obtain ⟨id, body, control⟩ := block
  obtain ⟨base, f, calls⟩ := called
  have kept := names_kept (.empty "main") accepted 9
  refine ⟨accepted, ((kept 3).2.2 "b" bound).resolve_left unbound, ?_, base, f, calls, ?_⟩
  · exact fun j => ((kept 5).1 id body control j).1
  · exact fun j => ((kept 14).2.1 base _ _ calls j).1

end LoxMachine.Session
