import LoxMachine.Proofs.Search.Agrees
import LoxMachine.Proofs.Session.ScopeMirror

namespace LoxMachine.Session

open Static

variable {held : List Value} {s : Session} {source : String} {program : List Stmt} {ds : Distances}

theorem mem_globals {name : String} (bound : s.store.scopes.contains Store.globals name = true) :
    name ∈ s.globals.names := by
  obtain ⟨a, found⟩ := Option.isSome_iff_exists.mp bound
  have member := Table.mem_of_get? found
  exact List.mem_map.mpr ⟨_, List.mem_mergeSort.mpr member, rfl⟩

theorem keeps_start {P : String → Prop} {shape : List Origin} {G : Occurrence → Prop}
    (store : s.store.Fits G shape) (top : s.scope = Store.globals)
    (old : ∀ name ∈ s.globals.names, P name) (new : ∀ name ∈ namesOf program, P name) :
    (s.machine .done [.sequence program]).Keeps (.naming P) := by
  refine ⟨false, rfl, ⟨store.inside, ?_⟩, rfl, ?_, top⟩
  · intro e outermost name bound
    cases Nat.lt_one_iff.mp outermost
    exact old name (mem_globals bound)
  · intro _
    exact ⟨True.intro, fun name member => new name.lexeme (List.mem_map_of_mem member)⟩

/-- The lines, the outcome and the store of a run are those of a search for every name. -/
theorem seek_of_accepted (reached : Reachable [] held s) (accepted : s.Accepts source program ds)
    (once : (s.globals.names ++ (stmtsDeclarations program).map (·.lexeme)).Nodup)
    (unassigned : Unassigned (stmtsInitializers program)) (limits : Limits)
    (found : ¬ (s.point limits.depth program ds limits.steps).Misses) :
    ∃ t r, s.run limits source = (t, .ok r) ∧ (s.seek limits program).2 = r ∧
      (s.seek limits program).1.store = t.store := by
  have sound := sound_of_reachable reached
  obtain ⟨shape, store, _⟩ := sound.store
  have settled : ∀ o, Among [program] o → o.Settled (s.globals.names ++ namesOf program) := by
    intro o member
    obtain ⟨_, here, occurs⟩ := member
    cases List.mem_singleton.mp here
    exact settled_of_accepted accepted.built.2 accepted.distances once unassigned o occurs
  have keeps : (s.machine .done [.sequence program]).Keeps
      (.naming (· ∈ s.globals.names ++ namesOf program)) :=
    keeps_start store sound.top (fun _ old => List.mem_append_left _ old)
      fun _ new => List.mem_append_right _ new
  have same := Machine.seekRun_eq_run (c := s.setting limits.depth ds) (accepted.resolves sound)
    settled (accepted.start_fits sound store) keeps limits.steps found
  have last : Machine.seekRun limits.depth limits.steps (s.machine .done [.sequence program]) =
    s.point limits.depth program ds limits.steps := same
  refine ⟨_, _, run_of_accepts accepted limits, ?_, ?_⟩
  · rw [seek, last]
    rfl
  · rw [seek, last]
    rfl

/-- A function finds the name one scope further out. -/
theorem seek_of_closure :
    (empty "main").Accepts "{ var a; fun f() { a; } f(); }" closureProgram [(2, 1), (5, 0)] ∧
      ((empty "main").globals.names ++
        (stmtsDeclarations closureProgram).map (·.lexeme)).Nodup ∧
      Unassigned (stmtsInitializers closureProgram) ∧
      ¬ ((empty "main").point 9 closureProgram [(2, 1), (5, 0)] 40).Misses ∧
      ∃ t r, (empty "main").run ⟨40, 9⟩ "{ var a; fun f() { a; } f(); }" = (t, .ok r) ∧
        ((empty "main").seek ⟨40, 9⟩ closureProgram).2 = r ∧
        ((empty "main").seek ⟨40, 9⟩ closureProgram).1.store = t.store := by
  have accepted : (empty "main").Accepts "{ var a; fun f() { a; } f(); }" closureProgram
      [(2, 1), (5, 0)] := ⟨by rfl, by rfl⟩
  have fresh : (empty "main").globals = [] := List.mergeSort_nil
  have once : ((empty "main").globals.names ++
      (stmtsDeclarations closureProgram).map (·.lexeme)).Nodup := by
    rw [fresh]
    decide
  have unassigned : Unassigned (stmtsInitializers closureProgram) := by
    intro entry member
    cases member
  have found : ¬ ((empty "main").point 9 closureProgram [(2, 1), (5, 0)] 40).Misses := by
    rintro ⟨name, line, failing⟩
    have finished :
        ((empty "main").point 9 closureProgram [(2, 1), (5, 0)] 40).control = .done := by rfl
    rw [finished] at failing
    cases failing
  exact ⟨accepted, once, unassigned, found,
    seek_of_accepted (.empty "main") accepted once unassigned ⟨40, 9⟩ found⟩

end LoxMachine.Session
