import LoxMachine.Proofs.Machine.Dues
import LoxMachine.Proofs.Session.Arguments

namespace LoxMachine

open Static

/-- The declaration of the name in the scope is completed. -/
def Event.Completes (e : ScopeId) (name : String) : Event → Prop
  | step c m => ∃ a, m.Completes c e name a
  | native _ _ => False

namespace Session

open Classical in
noncomputable def completions (e : ScopeId) (name : String) (past : List Event) : Nat :=
  past.countP fun event => event.Completes e name

variable {e : ScopeId} {name : String} {past : List Event} {c : Setting} {m : Machine}

theorem completions_append (past more : List Event) :
    completions e name (past ++ more) = completions e name past + completions e name more :=
  List.countP_append

theorem completions_completing {event : Event} (completes : event.Completes e name) :
    completions e name [event] = 1 := by
  simp [completions, completes]

theorem completions_other {event : Event} (other : ¬ event.Completes e name) :
    completions e name [event] = 0 := by
  simp [completions, other]

theorem only_completion (once : completions e name past ≤ 1) {event : Event} (member : event ∈ past)
    (completes : event.Completes e name) :
    ∃ before after, past = before ++ event :: after ∧
      ∀ other ∈ before ++ after, ¬ other.Completes e name := by
  obtain ⟨before, after, rfl⟩ := List.append_of_mem member
  refine ⟨before, after, rfl, ?_⟩
  have split : completions e name (before ++ event :: after) =
      completions e name before + (1 + completions e name after) := by
    rw [completions_append, ← List.singleton_append, completions_append,
      completions_completing completes]
  have none : completions e name (before ++ after) = 0 := by
    rw [completions_append]
    omega
  intro other here
  simpa only [decide_eq_true_eq] using List.countP_eq_zero.mp none other here

/-- In the scope the declaration of the name was completed, or is to be, at most once; and not at
all as long as the scope is not there. -/
structure DueOnce (e : ScopeId) (name : String) (past : List Event) (m : Machine) : Prop where
  once : completions e name past + m.dues.count (e, name) ≤ 1
  none : m.store.scopes.scopes.size ≤ e → completions e name past = 0

theorem DueOnce.step (due : DueOnce e name past m) (declarative : m.Declarative c) :
    DueOnce e name (past ++ [.step c m]) (Machine.step c m) := by
  obtain ⟨once, none⟩ := due
  have grown := (Machine.grows_step c m).size
  by_cases now : (Event.step c m).Completes e name
  · -- either it was due and no longer is, or its scope is new and what is bound there is not due
    have ⟨a, completes⟩ := now
    have bound := declarative.bound completes
    have inside := Forest.lt_size_of_contains bound
    refine ⟨?_, fun new => absurd inside (Nat.not_lt.mpr new)⟩
    rw [completions_append, completions_completing now]
    by_cases there : e < m.store.scopes.scopes.size
    · have taken := (Machine.dues_of_completes completes there).count_le (e, name)
      rw [List.count_cons_self] at taken
      omega
    · have new := Nat.le_of_not_lt there
      rw [none new, List.count_eq_zero.mpr ((declarative.count_new name new).2 bound)]
  · have same : completions e name (past ++ [.step c m]) = completions e name past := by
      rw [completions_append, completions_other now, Nat.add_zero]
    refine ⟨?_, fun new => same.trans (none (Nat.le_trans grown new))⟩
    · rw [same]
      by_cases there : e < m.store.scopes.scopes.size
      · have least := declarative.count_older name there
        omega
      · have new := Nat.le_of_not_lt there
        have least := (declarative.count_new name new).1
        rw [none new]
        omega

variable {programs : List (List Stmt)} {held : List Value} {s : Session} {events : List Event}
  {source : String} {program : List Stmt} {ds : Distances} {depth n : Nat}

theorem eventsAt_succ (s : Session) (depth : Nat) (program : List Stmt) (ds : Distances) (n : Nat)
    (events : List Event) : s.eventsAt depth program ds (n + 1) events =
      s.eventsAt depth program ds n events ++ if (s.point depth program ds n).isOver then []
        else [.step (s.setting depth ds) (s.point depth program ds n)] := by
  rw [eventsAt, eventsAt, Machine.steps, Machine.passed_succ, List.map_append, List.append_assoc]
  unfold point
  split <;> rfl

/-- What holds when a run starts, and is kept by each step that adds its event, holds in all its
states. -/
theorem holds_eventsAt {P : List Event → Machine → Prop}
    (start : P events (s.machine .done [.sequence program]))
    (kept : ∀ n, P (s.eventsAt depth program ds n events) (s.point depth program ds n) →
      P (s.eventsAt depth program ds n events ++
          [.step (s.setting depth ds) (s.point depth program ds n)])
        (Machine.step (s.setting depth ds) (s.point depth program ds n))) (n : Nat) :
    P (s.eventsAt depth program ds n events) (s.point depth program ds n) := by
  induction n with
  | zero =>
    have same : s.eventsAt depth program ds 0 events = events := List.append_nil _
    rw [same]
    exact start
  | succ n ih =>
    have next : s.point depth program ds (n + 1) =
        Machine.step (s.setting depth ds) (s.point depth program ds n) := Machine.run_succ _ _ _
    rw [eventsAt_succ, next]
    cases halted : (s.point depth program ds n).isOver with
    | true =>
      rw [(Machine.step_of_over _ halted).1]
      simpa using ih
    | false => exact kept n ih

theorem declarative_point (history : History programs held s events)
    (accepted : s.Accepts source program ds) (depth n : Nat) :
    (s.point depth program ds n).Declarative (s.setting depth ds) := by
  have sound := sound_of_reachable (reachable_of_history history)
  obtain ⟨shape, fits, _⟩ := accepted.fits sound depth n
  obtain ⟨_, _, made⟩ := made_of_history history
  obtain ⟨i, _, _, there, _⟩ := made.point depth program ds n
  have distinct : ∀ origin, Among (program :: programs) (.scope origin) → origin.names.Nodup :=
    fun origin opened => (accepted.placed_all sound _ opened).distinct origin rfl
  refine ⟨?_, fun due member => ?_, fun a frame rest => Machine.resumes_of_fits fits,
    fun id body control => ?_, fun base f arguments calls => ?_⟩
  · exact there.store.sized ▸ there.scope
  · rw [← there.store.sized]
    rcases List.mem_append.mp member with now | later
    · exact duesIn_scope now ▸ there.scope
    · exact duesOf_inside there.scope there.frames later
  · cases fits with
    | execute context levels at_phrase expects stands fits =>
      cases at_phrase.symm.trans control
      exact distinct _ fits.1
    | evaluate _ at_phrase | value _ at_phrase | done _ _ at_phrase | returning _ _ at_phrase
    | failing _ at_phrase => cases at_phrase.symm.trans control
  · obtain ⟨context, levels, fits⟩ := fits_of_calls history accepted calls
    obtain ⟨_, ⟨_, _, _, _⟩, _, _⟩ := f
    exact distinct _ fits.1.2.1

structure Settled (events : List Event) (s : Store) : Prop where
  once : ∀ e name, e ≠ Store.globals → completions e name events ≤ 1
  none : ∀ e name, s.scopes.scopes.size ≤ e → completions e name events = 0

theorem dueOnce_point (history : History programs held s events)
    (accepted : s.Accepts source program ds) (settled : Settled events s.store)
    (inner : e ≠ Store.globals) (name : String) (depth n : Nat) :
    DueOnce e name (s.eventsAt depth program ds n events) (s.point depth program ds n) := by
  have sound := sound_of_reachable (reachable_of_history history)
  let start := s.machine .done [.sequence program]
  -- at the beginning only the program itself is to declare names
  have first : start.dues = duesIn s.scope (program.flatMap Stmt.declared) := List.append_nil _
  have none : start.dues.count (e, name) = 0 := by
    apply List.count_eq_zero.mpr
    rw [first]
    intro member
    have here : e = s.scope := duesIn_scope member
    exact inner (here.trans sound.top)
  have due : DueOnce e name events start := by
    refine ⟨?_, settled.none e name⟩
    rw [none, Nat.add_zero]
    exact settled.once e name inner
  exact holds_eventsAt due
    (fun k before => before.step (declarative_point history accepted depth k)) n

/-- In a session no declaration in a local scope is completed twice. -/
theorem settled_of_history (history : History programs held s events) :
    Settled events s.store := by
  induction history with
  | empty file => exact ⟨fun _ _ _ => Nat.zero_le 1, fun _ _ _ => rfl⟩
  | keep _ _ ih => exact ih
  | entrust _ _ ih => exact ⟨ih.once, ih.none⟩
  | @setGlobal programs held s events a _ name known ih =>
    have size := Forest.size_define s.store.scopes Store.globals name a
    exact ⟨ih.once, fun e other new => ih.none e other (size ▸ new)⟩
  | @native programs held s events _ name arity function ih =>
    have silent : ∀ e other, completions e other
        (events ++ [.native (s.store.addHost name arity function).2 function]) =
          completions e other events := fun e other => by
      rw [completions_append, completions_other id, Nat.add_zero]
    have size := Forest.size_define s.store.scopes Store.globals name
      (s.defineNative name arity function).2
    refine ⟨fun e other inner => ?_, fun e other new => ?_⟩
    · rw [silent]
      exact ih.once e other inner
    · rw [silent]
      exact ih.none e other (size ▸ new)
  | rejected _ result ih =>
    rw [eq_of_rejected result, read_eq]
    exact ih
  | ran history limits accepted ended ih =>
    have due := fun e name (inner : e ≠ Store.globals) =>
      dueOnce_point history accepted ih inner name limits.depth limits.steps
    refine ⟨fun e name inner => ?_, fun e name new => ?_⟩
    · exact Nat.le_trans (Nat.le_add_right _ _) (due e name inner).once
    · have filled := (declarative_point history accepted limits.depth limits.steps).scope
      have inner : e ≠ Store.globals := by
        rintro rfl
        exact absurd (Nat.lt_of_lt_of_le filled new) (Nat.not_lt_zero _)
      exact (due e name inner).none new

end Session

end LoxMachine
