import LoxMachine.Proofs.Recode.Renaming
import LoxMachine.Proofs.Recode.Shown
import LoxMachine.Proofs.Session.Reachable

namespace LoxMachine

open Static

/-- Failures that say the same, except for new forms of expressions. -/
inductive Failure.Alike (ϕ : Respelling) : Failure → Failure → Prop
  | same (f : Failure) : Alike ϕ f f
  | complaint {c other : Complaint} (alike : c.Recoded ϕ other) (line : Nat) :
    Alike ϕ (.complaint c line) (.complaint other line)

/-- Outcomes of the same kind. -/
inductive Outcome.Alike (ϕ : Respelling) : Outcome → Outcome → Prop
  | done : Alike ϕ .done .done
  | failed {f other : Failure} (alike : f.Alike ϕ other) : Alike ϕ (.failed f) (.failed other)
  | unfinished : Alike ϕ .unfinished .unfinished

namespace Session

/-- What a run shows and leaves looks the same, except for new forms of expressions in a message. -/
structure Alike (ϕ : Respelling) (result other : Session × Run) : Prop where
  printed : other.2.printed = result.2.printed
  classes : other.2.classes = result.2.classes
  outcome : result.2.outcome.Alike ϕ other.2.outcome
  globals : other.1.globalTexts = result.1.globalTexts

theorem start_recoded {ϕ : Recoding} {G : Occurrence → Prop} {shape : List Origin} {s : Session}
    (same : s.store.recode ϕ shape = s.store) (discreet : s.store.Discreet)
    (body further : List Stmt) :
    (s.machine .done [.sequence body]).Recoded ϕ G shape further ⟨[], []⟩
      (s.machine .done [.sequence (stmtsRecode ϕ body ++ further)]) :=
  .going ⟨⟨rfl, rfl, same.symm, discreet, rfl, rfl⟩, .last body⟩ .done

section Accepted

variable {programs : List (List Stmt)} {held : List Value} {s : Session} {source : String}
  {program : List Stmt} {ds : Distances}

theorem Accepts.separate (accepted : s.Accepts source program ds)
    (sound : s.Sound programs held) : Separate program (Among programs) where
  placed o here := (accepted.placed o here).mono (fun _ _ => True.intro) fun _ => id
  distinct := accepted.numbered.2.1
  earlier o earlier := (sound.placed o earlier).mono (fun _ _ => True.intro) fun _ => id
  apart _ here _ earlier _ own same := accepted.apart sound here own earlier same

/-- After every number of steps, a run and that of the recoded program correspond. -/
theorem Accepts.recoded (accepted : s.Accepts source program ds) (sound : s.Sound programs held)
    (discreet : s.store.Discreet) {ϕ : Recoding} (respects : ϕ.Respects (Among (program :: programs)))
    (kept : ∀ o, Among programs o → (ϕ : Respelling).AgreeOn .still o)
    (names : ∀ origin, origin.Known (Among programs) → ∀ name ∈ origin.names,
      ϕ.bound origin name = name) (depth n : Nat) :
    ∃ shape, (s.point depth program ds n).Fits (Among (program :: programs)) shape ∧
      (s.point depth program ds n).Recoded ϕ (Among (program :: programs)) shape [] ⟨[], []⟩
        (s.point depth (stmtsRecode ϕ program) ds n) := by
  obtain ⟨shape, store, _⟩ := sound.store
  have same : s.store.recode ϕ shape = s.store :=
    store.recode_eq kept fun origin opened => names origin (store.known origin opened)
  have start : (s.machine .done [.sequence program]).Recoded ϕ (Among (program :: programs)) shape
      [] ⟨[], []⟩ (s.machine .done [.sequence (stmtsRecode ϕ program ++ [])]) :=
    start_recoded same discreet program []
  rw [List.append_nil] at start
  have resolves := accepted.resolves sound
  obtain ⟨added, fits, recoded⟩ := Machine.recoded_run (c := s.setting depth ds) respects
    resolves resolves rfl (accepted.start_fits sound store) start n fun _ _ _ => rfl
  exact ⟨shape ++ added, fits, recoded⟩

theorem outcomes_of_recoded {ϕ : Recoding} {G : Occurrence → Prop} {shape : List Origin}
    {further : List Stmt} {before : Record} {m other : Machine} (fits : m.Fits G shape)
    (recoded : m.Recoded ϕ G shape further before other) :
    m.outcome = .done ∧ other.outcome = .done ∨
      (∃ f f', m.outcome = .failed f ∧ other.outcome = .failed f' ∧ f.Recoded ϕ G f') ∨
      m.outcome = .unfinished ∧ other.outcome = .unfinished := by
  have outcome := recoded.outcome
  generalize other.outcome = reached at outcome ⊢
  rcases outcome_of_fits fits with done | ⟨f, failed⟩ | unfinished
  · rw [done] at outcome
    cases outcome
    exact .inl ⟨done, rfl⟩
  · rw [failed] at outcome
    cases outcome with
    | failed alike => exact .inr (.inl ⟨f, _, failed, rfl, alike⟩)
  · rw [unfinished] at outcome
    cases outcome
    exact .inr (.inr ⟨unfinished, rfl⟩)

/-- Runs of recoded programs, all tokens of which stay on their lines, come out alike. -/
theorem outcome_alike {ϕ : Recoding} {G : Occurrence → Prop} {shape : List Origin}
    {m other : Machine} (fits : m.Fits G shape) (recoded : m.Recoded ϕ G shape [] ⟨[], []⟩ other)
    (use_line : ∀ i t, (ϕ.use i t).line = t.line) (mark_line : ∀ i t, (ϕ.mark i t).line = t.line) :
    m.outcome.Alike ϕ other.outcome := by
  rcases outcomes_of_recoded fits recoded with
    ⟨done, done'⟩ | ⟨f, f', failed, failed', alike⟩ | ⟨unfinished, unfinished'⟩
  · rw [done, done']
    exact .done
  · rw [failed, failed']
    refine .failed ?_
    cases alike with
    | @use i name _ known complaint =>
      have line := use_line i name
      unfold Failure.against
      rw [line]
      exact .same _
    | @mark i t _ _ known alike =>
      have line := mark_line i t
      unfold Failure.against
      rw [line]
      exact .complaint alike t.line
    | host | overflow | callDepth => exact .same _
  · rw [unfinished, unfinished']
    exact .unfinished

/-- If the name of a local variable is changed to one that occurs nowhere in the program, in its
declaration and in the uses that the static pass binds to it, every use keeps its distance and every
run shows the same and leaves the same global names and texts. -/
theorem alike_of_renamable (reached : Reachable programs held s) (discreet : s.store.Discreet)
    (accepted : s.Accepts source program ds) {l : Local} {other : String}
    (renamable : Renamable program l other) :
    distancesOf (stmtsRecode (respell program l other) program) = .ok ds ∧
      ∀ limits, ∃ t r, s.run limits source = (t, .ok r) ∧
        Alike (respell program l other) (t, r) ((s.read source).1.interpret limits
          (stmtsRecode (respell program l other) program) ds) := by
  have sound := sound_of_reachable reached
  have separate := accepted.separate sound
  have respects : (separate.recoding renamable).Respects (Among (program :: programs)) :=
    separate.respects renamable fun o member => among_cons.mp member
  constructor
  · exact distancesOf_recode respects accepted.distances fun o here => among_cons.mpr (.inl here)
  · intro limits
    refine ⟨_, _, run_of_accepts accepted limits, ?_⟩
    obtain ⟨shape, fits, recoded⟩ := accepted.recoded sound discreet respects
      (fun o earlier => separate.kept renamable earlier)
      (fun origin known name _ => boundName_elsewhere (separate.elsewhere renamable known) name)
      limits.depth limits.steps
    have beside := recoded.beside
    rw [interpret_eq]
    refine ⟨?_, ?_, outcome_alike fits recoded ?_ fun _ _ => rfl, ?_⟩
    · exact congrArg List.reverse (beside.printed.trans (List.append_nil _))
    · exact congrArg List.reverse (beside.classes.trans (List.append_nil _))
    · intro i t
      change (if _ then _ else _ : Token).line = t.line
      split <;> rfl
    · exact globalTexts_recode fits.store beside.store

end Accepted

def hidingProgram : List Stmt :=
  [.var 2 ⟨.identifier, "a", 1⟩ (some (.literal 1 .nil)),
    .block 7 [.var 4 ⟨.identifier, "a", 1⟩ (some (.literal 3 (.bool true))),
      .print 6 (.read ⟨5, ⟨.identifier, "a", 1⟩⟩)],
    .print 9 (.read ⟨8, ⟨.identifier, "a", 1⟩⟩)]

def hidingLocal : Local := ⟨4, .block 7 ["a"], "a"⟩

theorem discreet_empty (file : String) : (empty file).store.Discreet := by
  intro index entry found
  cases found

/-- The variable of the block is renamed, the global one is not. -/
theorem alike_of_hiding :
    (empty "main").Accepts "var a = nil; { var a = true; print a; } print a;" hidingProgram [(5, 0)] ∧
      Renamable hidingProgram hidingLocal "b" ∧ usesOf hidingProgram hidingLocal = [5] ∧
      distancesOf (stmtsRecode (respell hidingProgram hidingLocal "b") hidingProgram) =
        .ok [(5, 0)] ∧
      ∀ limits, ∃ t r,
        (empty "main").run limits "var a = nil; { var a = true; print a; } print a;" = (t, .ok r) ∧
        Alike (respell hidingProgram hidingLocal "b") (t, r)
          (((empty "main").read "var a = nil; { var a = true; print a; } print a;").1.interpret limits
            (stmtsRecode (respell hidingProgram hidingLocal "b") hidingProgram) [(5, 0)]) := by
  have accepted : (empty "main").Accepts "var a = nil; { var a = true; print a; } print a;"
      hidingProgram [(5, 0)] := ⟨by rfl, by rfl⟩
  have renamable : Renamable hidingProgram hidingLocal "b" := by
    refine ⟨⟨7, rfl⟩, ⟨.variable 4 ⟨.identifier, "a", 1⟩ [⟨.block 7 ["a"], []⟩], ?_, rfl⟩, ?_, ?_⟩
    · exact List.mem_cons_of_mem _ (List.mem_cons_of_mem _ List.mem_cons_self)
    · decide
    · decide
  exact ⟨accepted, renamable, rfl, alike_of_renamable (.empty "main") (discreet_empty "main") accepted
    renamable⟩

end Session

end LoxMachine
