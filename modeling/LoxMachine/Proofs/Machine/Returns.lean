import LoxMachine.Proofs.Machine.Names

namespace LoxMachine

def Closure.initialized (f : Closure) : Option ScopeId :=
  if f.isInitializer then some f.scope else none

namespace Machine

variable {c : Setting} {m : Machine} {n : Nat}

theorem going_above (frame : Frame) (rest : List Frame) :
    (m.above (frame :: rest)).isOver = false := by
  obtain ⟨control, frames, scope, depth, store, printed, classes⟩ := m
  cases frames <;> cases control <;> rfl

theorem frames_above (halts : m.isOver = true) (waiting : List Frame) :
    (m.above waiting).frames = waiting := by
  rw [above, frames_of_over halts, List.nil_append]

theorem run_above_going (waiting : List Frame) (going : (run c n m).isOver = false) :
    run c n (m.above waiting) = (run c n m).above waiting := by
  cases waiting with
  | nil => simp only [above, List.append_nil]
  | cons frame rest =>
    induction n generalizing m with
    | zero => rfl
    | succ n ih =>
      have begun : m.isOver = false := by
        cases halted : m.isOver with
        | false => rfl
        | true => rw [run_of_over halted, halted] at going; cases going
      rw [run, begun, if_neg Bool.false_ne_true] at going
      rw [run, run, begun, going_above, if_neg Bool.false_ne_true, if_neg Bool.false_ne_true,
        step_above begun]
      exact ih going

theorem over_of_above {frame : Frame} {rest : List Frame}
    (halted : (run c n (m.above (frame :: rest))).isOver = true) : (run c n m).isOver = true := by
  cases ended : (run c n m).isOver with
  | true => rfl
  | false =>
    rw [run_above_going _ ended, going_above] at halted
    cases halted

/-- If nothing is left to do after a run and one frame that waits for it, then the last step was
that of the frame. -/
theorem last_of_above {frame : Frame} (halted : (run c n (m.above [frame])).isOver = true)
    (ends : (step c ((run c n m).above [frame])).isOver = true) :
    ∃ k < n, run c k (m.above [frame]) = (run c n m).above [frame] ∧
      run c n (m.above [frame]) = step c ((run c n m).above [frame]) := by
  obtain ⟨k, early, same⟩ := run_above c m [frame] n
  obtain ⟨rest, steps⟩ := Nat.exists_eq_add_of_le early
  have further : run c n (m.above [frame]) = run c rest ((run c n m).above [frame]) := by
    rw [← same, ← run_add, ← steps]
  rw [further] at halted ⊢
  cases rest with
  | zero =>
    rw [run, going_above] at halted
    cases halted
  | succ rest =>
    refine ⟨k, by omega, same, ?_⟩
    rw [run, going_above, if_neg Bool.false_ne_true]
    exact run_of_over ends rest

/-- The body of a call has come to its end or to a `return`, with a value that the call gives back
unless it is that of an initializer. -/
structure GivesBack (m : Machine) (caller : ScopeId) (initialized : Option ScopeId) (a : Value) :
    Prop where
  frames : m.frames = [.leaveCall caller initialized]
  control : m.control = .returning a ∨ (m.control = .done ∧ a = .nil)

theorem step_of_givesBack {caller : ScopeId} {initialized : Option ScopeId} {a : Value}
    (gives : m.GivesBack caller initialized a) :
    step c m = leaveCall { m with frames := [] } caller initialized a := by
  obtain ⟨control, frames, scope, depth, store, printed, classes⟩ := m
  obtain ⟨rfl, rfl | ⟨rfl, rfl⟩⟩ := gives <;> rfl

theorem over_of_leaveCall (frames : m.frames = []) (caller : ScopeId)
    (initialized : Option ScopeId) (a : Value) :
    (m.leaveCall caller initialized a).isOver = true := by
  obtain ⟨control, frames, scope, depth, store, printed, classes⟩ := m
  cases frames
  cases initialized with
  | none => rfl
  | some own =>
    change (giveBound _ (store.scopes.get own "this")).isOver = true
    cases store.scopes.get own "this" <;> rfl

theorem control_leaveCall {e : ScopeId} {a : Value} (named : m.store.scopes.get e "this" = .ok a)
    (caller : ScopeId) (b : Value) : (m.leaveCall caller (some e) b).control = .value a := by
  simp only [leaveCall, named]
  rfl

theorem Keeps.further {k : Machine} (keeps : k.Keeps m.here) (n : Nat) :
    (Machine.run c n k).Keeps m.here :=
  Keeps.run keeps n fun _ _ _ e _ _ => .inr (Nat.zero_le e)

theorem suits_of_keeps {x : Extent} {frame : Frame} (frames : m.frames = [])
    (keeps : (m.above [frame]).Keeps x) : m.control.Suits x m.scope frame.takesValue := by
  obtain ⟨takesValue, suits, ready⟩ := keeps
  have waits := ready.frames
  simp only [above, frames, List.nil_append] at waits
  rw [waits.1]
  exact suits

theorem givesBack_of_over {x : Extent} {caller : ScopeId} {initialized : Option ScopeId}
    (halts : m.isOver = true) (keeps : (m.above [.leaveCall caller initialized]).Keeps x) :
    (∃ g, m.control = .failing g) ∨
      ∃ a, (m.above [.leaveCall caller initialized]).GivesBack caller initialized a := by
  have frames := frames_of_over halts
  have suits := suits_of_keeps frames keeps
  have below := frames_above halts [.leaveCall caller initialized]
  cases control : m.control with
  | evaluate e => simp [isOver, control] at halts
  | execute s => simp [isOver, control] at halts
  | value a =>
    rw [control] at suits
    cases suits
  | done => exact .inr ⟨.nil, below, .inr ⟨control, rfl⟩⟩
  | returning a => exact .inr ⟨a, below, .inl control⟩
  | failing g => exact .inl ⟨g, rfl⟩

theorem step_failing {g : Failure} (halts : m.isOver = true) (control : m.control = .failing g)
    (frame : Frame) :
    (step c (m.above [frame])).control = .failing g ∧
      (step c (m.above [frame])).isOver = true := by
  have frames := frames_of_over halts
  obtain ⟨_, _, scope, depth, store, printed, classes⟩ := m
  cases control
  cases frames
  cases frame <;> exact ⟨rfl, rfl⟩

theorem step_constructing {a : Value} (halts : m.isOver = true) (control : m.control = .value a)
    (o : Object) :
    (step c (m.above [.construct o])).control = .value (.object o) ∧
      (step c (m.above [.construct o])).isOver = true := by
  have frames := frames_of_over halts
  obtain ⟨_, _, scope, depth, store, printed, classes⟩ := m
  cases control
  cases frames
  exact ⟨rfl, rfl⟩

def body (m : Machine) (f : Closure) (arguments : List Value) : Machine :=
  let (store, e) := m.store.openScope f.scope
  { m with
    control := .done
    frames := [.sequence f.decl.body]
    scope := e
    depth := m.depth + 1
    store := bindParameters store e f.decl.params arguments }

theorem enter_eq (room : m.depth < c.depthLimit) (frames : m.frames = []) (f : Closure)
    (arguments : List Value) :
    enter c m f arguments = (m.body f arguments).above [.leaveCall m.scope f.initialized] := by
  obtain ⟨control, _, scope, depth, store, printed, classes⟩ := m
  cases frames
  exact if_neg (Nat.not_le_of_gt room)

theorem ends_of_enter {f : Closure} {arguments : List Value} (frames : m.frames = [])
    (halted : (run c n (enter c m f arguments)).isOver = true) :
    (∃ g, (run c n (enter c m f arguments)).control = .failing g) ∨
      ∃ i < n, ∃ a, (run c i (enter c m f arguments)).GivesBack m.scope f.initialized a ∧
        run c n (enter c m f arguments) =
          leaveCall { run c i (enter c m f arguments) with frames := [] } m.scope f.initialized
            a := by
  have keeps : (enter c m f arguments).Keeps m.here :=
    Ready.enter ⟨m.store_here _, by rw [frames]; rfl⟩ f arguments
  by_cases room : m.depth < c.depthLimit
  · rw [enter_eq room frames f arguments] at halted keeps ⊢
    -- the body has come to its end too, and what it ends with decides the last step
    have halts := over_of_above halted
    obtain ⟨k, _, same⟩ := run_above c (m.body f arguments) [.leaveCall m.scope f.initialized] n
    rcases givesBack_of_over halts (same ▸ keeps.further k) with ⟨g, failing⟩ | ⟨a, gives⟩
    · obtain ⟨failed, ends⟩ :=
        step_failing (c := c) halts failing (.leaveCall m.scope f.initialized)
      obtain ⟨i, _, _, last⟩ := last_of_above halted ends
      exact .inl ⟨g, last ▸ failed⟩
    · have next := step_of_givesBack (c := c) gives
      obtain ⟨i, before, there, last⟩ := last_of_above halted
        (next ▸ over_of_leaveCall rfl m.scope f.initialized a)
      refine .inr ⟨i, before, a, there ▸ gives, ?_⟩
      rw [last, next, there]
  · -- too deep, so the call failed at once
    have full : enter c m f arguments = m.fail .callDepth := if_pos (Nat.le_of_not_lt room)
    have halts : (m.fail .callDepth).isOver = true := List.isEmpty_iff.mpr frames
    rw [full, run_of_over halts]
    exact .inl ⟨_, rfl⟩

theorem enter_above (frames : m.frames = []) (waiting : List Frame) (f : Closure)
    (arguments : List Value) :
    enter c (m.above waiting) f arguments = (enter c m f arguments).above waiting := by
  obtain ⟨control, _, scope, depth, store, printed, classes⟩ := m
  cases frames
  by_cases full : c.depthLimit ≤ depth
  · simp only [enter, above, full, ↓reduceIte]
    rfl
  · simp only [enter, above, full, ↓reduceIte]
    rfl

theorem instantiate_eq (frames : m.frames = []) {k : Class} {method : Method}
    (found : k.initializer = some method) (arguments : List Value) :
    ∃ (first : Machine) (f : Closure), first.frames = [] ∧
      instantiate c m k arguments =
        (enter c first f arguments).above [.construct (m.store.instantiate k).2] := by
  let made := m.store.instantiate k
  let bound := made.1.bind method (.object made.2)
  refine ⟨{ m with store := bound.1, frames := [] }, bound.2, rfl, ?_⟩
  rw [← enter_above rfl]
  simp only [instantiate, found, frames]
  rfl

/-- A call of a class by itself that has come to its end has failed or gives the new object. -/
theorem ends_of_instantiate {k : Class} {arguments : List Value} (frames : m.frames = [])
    (halted : (run c n (instantiate c m k arguments)).isOver = true) :
    (∃ g, (run c n (instantiate c m k arguments)).control = .failing g) ∨
      (run c n (instantiate c m k arguments)).control =
        .value (.object (m.store.instantiate k).2) := by
  have keeps : (instantiate c m k arguments).Keeps m.here :=
    Ready.instantiate ⟨m.store_here _, by rw [frames]; rfl⟩ k arguments
  cases found : k.initializer with
  | none =>
    have made : instantiate c m k arguments =
        { m with
          control := .value (.object (m.store.instantiate k).2)
          store := (m.store.instantiate k).1 } := by
      simp only [instantiate, found]
    have halts : (instantiate c m k arguments).isOver = true := by
      rw [made]
      exact List.isEmpty_iff.mpr frames
    rw [run_of_over halts, made]
    exact .inr rfl
  | some method =>
    obtain ⟨first, f, alone, same⟩ := instantiate_eq (c := c) frames found arguments
    rw [same] at halted keeps ⊢
    let object := (m.store.instantiate k).2
    have halts := over_of_above halted
    obtain ⟨i, _, there⟩ := run_above c (enter c first f arguments) [.construct object] n
    have suits := suits_of_keeps (frames_of_over halts) (there ▸ keeps.further i)
    cases control : (run c n (enter c first f arguments)).control with
    | evaluate e => simp [isOver, control] at halts
    | execute s => simp [isOver, control] at halts
    | done | returning a =>
      rw [control] at suits
      cases suits
    | value a =>
      obtain ⟨gave, ends⟩ := step_constructing (c := c) halts control object
      obtain ⟨_, _, _, last⟩ := last_of_above halted ends
      exact .inr (last ▸ gave)
    | failing g =>
      obtain ⟨failed, ends⟩ := step_failing (c := c) halts control (.construct object)
      obtain ⟨_, _, _, last⟩ := last_of_above halted ends
      exact .inl ⟨g, last ▸ failed⟩

end Machine

end LoxMachine
