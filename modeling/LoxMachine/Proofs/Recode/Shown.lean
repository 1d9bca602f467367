import LoxMachine.Machine.Session
import LoxMachine.Proofs.Recode.Step

namespace LoxMachine

open Static

theorem Table.sorted_recode {α β : Type} (t : Table α) (f : α → β) :
    (t.recode id f).sorted = t.sorted.recode id f := by
  unfold sorted recode
  rw [List.map_mergeSort]
  intro a _ b _
  rfl

def Session.globalTexts (s : Session) : List (String × String) :=
  s.globals.map fun entry => (entry.1, entry.2.text)

section Shown

variable {ϕ : Recoding} {G : Occurrence → Prop} {shape : List Origin}

theorem bindings_globals_recode {s : Store} (fits : s.Fits G shape) :
    (s.recode ϕ shape).scopes.bindings Store.globals =
      (s.scopes.bindings Store.globals).recode id (·.recode ϕ) := by
  have opened : originAt shape Store.globals = .global := originAt_eq fits.global
  have bound : ϕ.bound (originAt shape Store.globals) = id := by
    funext name
    rw [opened, ϕ.bound_global, id]
  change (s.scopes.recode ϕ shape).bindings Store.globals = _
  rw [Forest.bindings_recode, Table.recodeBindings, bound]

theorem globalTexts_recode {s other : Session} (fits : s.store.Fits G shape)
    (same : other.store = s.store.recode ϕ shape) : other.globalTexts = s.globalTexts := by
  unfold Session.globalTexts Session.globals
  rw [same, bindings_globals_recode fits, Table.sorted_recode, Table.recode, List.map_map]
  refine List.map_congr_left fun entry _ => ?_
  exact Prod.ext rfl (entry.2.text_recode ϕ)

/-- Outcomes of which one is the recoding of the other. -/
inductive Outcome.Recoded (ϕ : Recoding) (G : Occurrence → Prop) : Outcome → Outcome → Prop
  | value (a : Value) : Recoded ϕ G (.value a) (.value (a.recode ϕ))
  | done : Recoded ϕ G .done .done
  | returned (a : Value) : Recoded ϕ G (.returned a) (.returned (a.recode ϕ))
  | failed {f other : Failure} (alike : f.Recoded ϕ G other) : Recoded ϕ G (.failed f) (.failed other)
  | unfinished : Recoded ϕ G .unfinished .unfinished

theorem outcome_of_frames {m : Machine} {frame : Frame} {rest : List Frame}
    (frames : m.frames = frame :: rest) : m.outcome = .unfinished := by
  unfold Machine.outcome
  rw [frames]
  split <;> simp_all

theorem Machine.Recoded.beside {further : List Stmt} {before : Record} {m other : Machine}
    (recoded : m.Recoded ϕ G shape further before other) : m.Beside ϕ shape before other := by
  cases recoded with
  | going parallel => exact parallel.toBeside
  | ended beside => exact beside

theorem Machine.Recoded.control {further : List Stmt} {before : Record} {m other : Machine}
    (recoded : m.Recoded ϕ G shape further before other) :
    m.control.Recoded ϕ G other.control := by
  cases recoded with
  | going _ control => exact control
  | ended _ _ _ _ control => exact control

theorem Machine.Recoded.outcome {further : List Stmt} {before : Record} {m other : Machine}
    (recoded : m.Recoded ϕ G shape further before other) : m.outcome.Recoded ϕ G other.outcome := by
  obtain ⟨control, frames, scope, depth, store, printed, classes⟩ := m
  obtain ⟨control', frames', scope', depth', store', printed', classes'⟩ := other
  cases recoded with
  | going parallel alike =>
    obtain ⟨_, corresponding⟩ := parallel
    cases corresponding with
    | last body =>
      rw [outcome_of_frames rfl, outcome_of_frames rfl]
      exact .unfinished
    | cons first later =>
      rw [outcome_of_frames rfl, outcome_of_frames rfl]
      exact .unfinished
  | ended beside halted left right alike =>
    cases left
    cases right
    cases alike with
    | evaluate | execute => cases halted
    | value a => exact .value a
    | done => exact .done
    | returning a => exact .returned a
    | failing alike => exact .failed alike

end Shown

end LoxMachine
