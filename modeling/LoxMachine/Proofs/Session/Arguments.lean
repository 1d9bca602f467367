import LoxMachine.Proofs.Machine.Arguments
import LoxMachine.Proofs.Session.Initializers

namespace LoxMachine

open Static

def Event.registered? : Event → Option (Native × HostFunction)
  | step _ _ => none
  | native f function => some (f, function)

namespace Session

variable {programs : List (List Stmt)} {held : List Value} {s : Session} {events : List Event}
  {source : String} {program : List Stmt} {ds : Distances} {depth n : Nat}

theorem functions_of_history (history : History programs held s events) :
    (s.store.host.map (·.function)).toList =
      (events.filterMap Event.registered?).map (·.2) := by
  induction history with
  | empty file => simp [empty, Store.initial]
  | keep _ _ ih | setGlobal _ _ _ ih | entrust _ _ ih => exact ih
  | @native programs held s events _ name arity function ih =>
    rw [List.filterMap_append, List.map_append, ← ih]
    simp [defineNative, setGlobal, Store.addHost, Store.define, Event.registered?]
  | rejected _ result ih =>
    rw [eq_of_rejected result, read_eq]
    exact ih
  | @ran programs held s events source program ds _ limits accepted ended ih =>
    have run := Machine.changes_run (s.setting limits.depth ds)
      (s.machine .done [.sequence program]) limits.steps
    have still : (s.eventsAt limits.depth program ds limits.steps events).filterMap
        Event.registered? = events.filterMap Event.registered? := by
      have none : (Machine.steps (s.setting limits.depth ds) limits.steps
          (s.machine .done [.sequence program])).filterMap Event.registered? = [] := by
        rw [Machine.steps, List.filterMap_map]
        exact List.filterMap_eq_nil_iff.mpr fun _ _ => rfl
      rw [eventsAt, List.filterMap_append, none, List.append_nil]
    rw [still, ← ih]
    exact congrArg Array.toList (functions_of_becomes run)

/-- A function of the host that is called was added with the number of its arguments, and is the one
that replies. -/
theorem registered_of_calls (history : History programs held s events) {base : Machine} {f : Native}
    {arguments : List Value}
    (calls : (s.point depth program ds n).Calls base (.native f) arguments) :
    ∃ function, .native f function ∈ events ∧
      ((s.point depth program ds n).store.host[f.index]?).map (·.function) = some function := by
  obtain ⟨i, natives, made⟩ := made_of_history history
  obtain ⟨j, _, same, there, _⟩ := made.point depth program ds n
  have known : (Value.native f).Made j := by
    apply Machine.native_of_calls _ _ calls
    · intro a control
      have at_hand := there.control
      rwa [control] at at_hand
    · exact fun a callee paren given rest waits => (there.frames _ waits).1
  have added : nativesOf events = (events.filterMap Event.registered?).map (·.1) := by
    rw [nativesOf, List.map_filterMap]
    congr 1
    funext event
    cases event <;> rfl
  have place : (nativesOf events)[f.index]? = some f := by
    rw [← natives, ← same]
    exact known
  rw [added, List.getElem?_map, Option.map_eq_some_iff] at place
  obtain ⟨⟨_, function⟩, here, rfl⟩ := place
  refine ⟨function, ?_, ?_⟩
  · obtain ⟨event, member, registered⟩ := List.mem_filterMap.mp (List.mem_of_getElem? here)
    cases event with
    | step _ _ => cases registered
    | native _ _ =>
      cases registered
      exact member
  · have run := functions_of_becomes (Machine.changes_run (s.setting depth ds)
      (s.machine .done [.sequence program]) n)
    have functions : ((s.point depth program ds n).store.host.map (·.function)).toList =
        (events.filterMap Event.registered?).map (·.2) :=
      (congrArg Array.toList run).trans (functions_of_history history)
    rw [← Array.getElem?_map, ← Array.getElem?_toList, functions, List.getElem?_map, here]
    rfl

theorem fits_of_calls (history : History programs held s events)
    (accepted : s.Accepts source program ds) {base : Machine} {f : Closure} {arguments : List Value}
    (calls : (s.point depth program ds n).Calls base (.closure f) arguments) :
    ∃ context levels, f.decl.Fits (Among (program :: programs)) context levels := by
  have sound := sound_of_reachable (reachable_of_history history)
  obtain ⟨shape, fits, _⟩ := accepted.fits sound depth n
  let w := (s.point depth program ds n).world (Among (program :: programs)) shape
  have hand : ∀ a, (s.point depth program ds n).control = .value a → a.Fits w :=
    fun a control => Machine.fits_of_hand fits control
  have waiting : ∀ a callee paren given rest,
      .argument a callee paren given rest ∈ (s.point depth program ds n).frames → a.Fits w := by
    obtain ⟨_, expects⟩ := Machine.expects_of_fits fits
    exact fun a callee paren given rest waits => Machine.fits_of_waiting expects.frames waits
  rcases Machine.target_of_calls hand waiting calls with
    ⟨_, _, decl, _⟩ | ⟨inner, k, method, called, found, same⟩
  · exact ⟨_, _, decl⟩
  · cases same
    obtain ⟨_, _, decl, _⟩ := fits_findMethod (Machine.class_of_calls hand waiting called) found
    exact ⟨_, _, decl⟩

theorem distinct_of_calls (history : History programs held s events)
    (accepted : s.Accepts source program ds) {base : Machine} {f : Closure} {arguments : List Value}
    (calls : (s.point depth program ds n).Calls base (.closure f) arguments) :
    (f.decl.params.map (·.lexeme)).Nodup := by
  obtain ⟨context, levels, fits⟩ := fits_of_calls history accepted calls
  obtain ⟨_, ⟨_, _, _, _⟩, _, _⟩ := f
  exact fits.1.2.2

/-- When a call has all its arguments, a call expression began at an earlier point, its callee gave
the value and its arguments gave these values, one after the other. If the value can be called with
as many arguments, it is called; if not, the run fails and nothing else happens. -/
theorem applied_of_supplies {base : Machine} {v : Value} {callee : Expr} {paren : Token}
    {given : List Value}
    (supplies : (s.point depth program ds n).Supplies base v callee paren given []) :
    (∃ last, Machine.Supplied (s.setting depth ds) (fun k => ∃ i < n, k = s.point depth program ds i)
        base.frames v callee paren given [] last ∧ base = last.above base.frames) ∧
      (v.callable? = none → s.point depth program ds (n + 1) =
        base.complain paren (.notCallable callee.form v.text)) ∧
      ∀ target, v.callable? = some target →
        (given.length = target.arity →
          (s.point depth program ds n).Calls base target given.reverse) ∧
        (given.length ≠ target.arity → s.point depth program ds (n + 1) =
          base.complain paren (.argumentCount target.arity given.length)) := by
  have next : s.point depth program ds (n + 1) =
      Machine.call (s.setting depth ds) base callee paren v given.reverse := by
    have begun := Machine.step_of_supplies (c := s.setting depth ds) supplies
    unfold point at begun ⊢
    rw [Machine.run_succ, begun, Machine.supply]
  refine ⟨?_, fun uncallable => ?_, fun target callable => ⟨fun right => ?_, fun wrong => ?_⟩⟩
  · apply (Machine.traced_run _ n).supplied supplies
    exact List.forall_mem_singleton.mpr rfl
  · exact next.trans (Machine.call_uncallable uncallable _ base callee paren _)
  · exact Machine.calls_of_supplies supplies callable (given.length_reverse.trans right)
  · rw [← given.length_reverse] at wrong ⊢
    exact next.trans (Machine.call_miscounted callable wrong _ base callee paren)

/-- In every run of an accepted program, when the body of a function begins then the function is
called, as itself or as the initializer of a class, and its new scope binds exactly its parameters,
which differ, each to its own argument. When the host replies then one of its functions is called
that was added with the number of these arguments. What is called comes from a call expression whose
callee and arguments gave these values from left to right. A call expression whose callee and
arguments give values comes to the call with them, and fails there, with nothing else done, if the
value cannot be called or expects another number of arguments. -/
theorem parameters_bound (history : History programs held s events)
    (accepted : s.Accepts source program ds) (depth n : Nat) :
    let c := s.setting depth ds
    let m := s.point depth program ds n
    let next := s.point depth program ds (n + 1)
    (m.depth < next.depth → ∃ base f arguments, m.Calls base (.closure f) arguments ∧
      base.Begins next f arguments ∧ (f.decl.params.map (·.lexeme)).Nodup) ∧
    (next.store.host ≠ m.store.host →
      ∃ base f arguments, m.Calls base (.native f) arguments) ∧
    (∀ base f arguments, m.Calls base (.native f) arguments →
      arguments.length = f.arity ∧ next = base.callHost f arguments ∧
        ∃ function, .native f function ∈ events ∧
          (m.store.host[f.index]?).map (·.function) = some function) ∧
    (∀ base target arguments, m.Calls base target arguments →
      (∃ callee paren, m.Supplies base target.value callee paren arguments.reverse []) ∨
        ∃ inner k method, m.Calls inner (.cls k) arguments ∧ k.initializer = some method ∧
          target = .closure (inner.initializing k method).2) ∧
    (∀ id callee paren es, m.control = .evaluate (.call id callee paren es) →
      ∀ v first arguments last, Machine.Evaluates c m callee v first →
        Machine.EvaluatesAll c first es arguments last →
          ∃ k, (s.point depth program ds (n + k)).Supplies (last.above m.frames) v callee paren
            arguments.reverse []) ∧
    ∀ base v callee paren given, m.Supplies base v callee paren given [] →
      (∃ last, Machine.Supplied c (fun k => ∃ i < n, k = s.point depth program ds i) base.frames v
          callee paren given [] last ∧ base = last.above base.frames) ∧
        (v.callable? = none → next = base.complain paren (.notCallable callee.form v.text)) ∧
        ∀ target, v.callable? = some target →
          (given.length = target.arity → m.Calls base target given.reverse) ∧
          (given.length ≠ target.arity →
            next = base.complain paren (.argumentCount target.arity given.length)) := by
  intro c m next
  have step : next = Machine.step c m := Machine.run_succ _ _ _
  refine ⟨fun deeper => ?_, fun changed => ?_, fun base f arguments calls => ?_,
    fun base target arguments calls => ?_, fun id callee paren es control => ?_,
    fun base v callee paren given supplies => applied_of_supplies supplies⟩
  · rw [step] at deeper ⊢
    obtain ⟨base, f, arguments, calls, room, entered⟩ := Machine.calls_of_deeper deeper
    have distinct := distinct_of_calls history accepted calls
    refine ⟨base, f, arguments, calls, ?_, distinct⟩
    rw [entered]
    exact Machine.begins_of_enter room (Machine.length_of_calls calls) distinct
  · rw [step] at changed
    exact Machine.calls_of_host changed
  · refine ⟨Machine.length_of_calls calls, ?_, registered_of_calls history calls⟩
    rw [step]
    exact Machine.step_of_calls calls
  · cases calls with
    | first control frames right => exact .inl ⟨_, _, .first control frames⟩
    | last control frames right =>
      rw [List.reverse_reverse]
      exact .inl ⟨_, _, .next control frames⟩
    | initializer called found => exact .inr ⟨_, _, _, called, found, rfl⟩
  · intro v first arguments last called all
    obtain ⟨k, supplies⟩ := Machine.supplies_of_call control called all
    refine ⟨k, ?_⟩
    have later : s.point depth program ds (n + k) = Machine.run c k m := Machine.run_add _ _ _ _
    rw [later]
    exact supplies

/-- An inherited initializer, a function of the host and a value that cannot be called. -/
def supplyingProgram : List Stmt :=
  [.classDecl 2 (firstLine "A") none
      [.mk 1 (firstLine "init") [firstLine "a", firstLine "b"] []],
    .classDecl 4 (firstLine "B") (some ⟨3, firstLine "A"⟩) [],
    .expression 9 (.call 8 (.read ⟨5, firstLine "B"⟩) ⟨.symbol .rightParen, ")", 1⟩
      [.literal 6 (.bool true), .literal 7 .nil]),
    .expression 12 (.call 11 (.read ⟨10, firstLine "clock"⟩) ⟨.symbol .rightParen, ")", 1⟩ []),
    .expression 16 (.call 15 (.literal 13 .nil) ⟨.symbol .rightParen, ")", 1⟩
      [.literal 14 (.bool true)])]

def supplyingPoint (n : Nat) : Machine := (start "main" 0).point 9 supplyingProgram [] n

theorem evaluates_supplying :
    let c := (start "main" 0).setting 9 []
    ∃ id callee paren es first last,
      (supplyingPoint 27).control = .evaluate (.call id callee paren es) ∧
        Machine.Evaluates c (supplyingPoint 27) callee .nil first ∧
        Machine.EvaluatesAll c first es [.bool true] last :=
  ⟨_, _, _, _, _, _, rfl, ⟨⟨1, rfl⟩, rfl, rfl⟩, .cons ⟨⟨1, rfl⟩, rfl, rfl⟩ (.nil _)⟩

/-- The initializer begins with its parameters bound, the host replies, and the last call fails. -/
theorem parameters_bound_supplying :
    (start "main" 0).Accepts
        "class A { init(a, b) {} } class B < A {} B(true, nil); clock(); nil(true);"
        supplyingProgram [] ∧
      (∃ base f arguments, (supplyingPoint 14).Calls base (.closure f) arguments ∧
        base.Begins (supplyingPoint 15) f arguments) ∧
      (∃ base f arguments, (supplyingPoint 23).Calls base (.native f) arguments ∧
        arguments.length = f.arity) ∧
      ∃ k base callee paren,
        (supplyingPoint (27 + k)).Supplies base .nil callee paren [.bool true] [] ∧
          supplyingPoint (27 + k + 1) = base.complain paren (.notCallable callee.form "nil") := by
  have read : (start "main" 0).read
      "class A { init(a, b) {} } class B < A {} B(true, nil); clock(); nil(true);" =
        ({ start "main" 0 with nextId := 17 }, .ok supplyingProgram) := by cbv
  have accepted : (start "main" 0).Accepts
      "class A { init(a, b) {} } class B < A {} B(true, nil); clock(); nil(true);"
      supplyingProgram [] := ⟨congrArg Prod.snd read, by rfl⟩
  have history : History [] [(empty "main").defineNative "clock" 0 (clockFrom 0) |>.2]
      (start "main" 0) _ := .native (.empty "main") "clock" 0 (clockFrom 0)
  have bound := parameters_bound history accepted 9
  have deeper : (supplyingPoint 14).depth < (supplyingPoint 15).depth := by decide +kernel
  have replies : (supplyingPoint 24).store.host ≠ (supplyingPoint 23).store.host := by
    intro same
    have counted : (supplyingPoint 24).store.host[0]?.map (·.calls) = some 1 := by decide +kernel
    have before : (supplyingPoint 23).store.host[0]?.map (·.calls) = some 0 := by decide +kernel
    rw [same, before] at counted
    cases counted
  obtain ⟨id, callee, paren, es, first, last, control, called, all⟩ := evaluates_supplying
  refine ⟨accepted, ?_, ?_, ?_⟩
  · obtain ⟨base, f, arguments, calls, begins, _⟩ := (bound 14).1 deeper
    exact ⟨base, f, arguments, calls, begins⟩
  · obtain ⟨base, f, arguments, calls⟩ := (bound 23).2.1 replies
    exact ⟨base, f, arguments, calls, ((bound 23).2.2.1 base f arguments calls).1⟩
  · obtain ⟨_, _, _, _, comes, _⟩ := bound 27
    obtain ⟨k, supplies⟩ := comes id callee paren es control .nil first [.bool true] last called all
    obtain ⟨_, _, _, _, _, applied⟩ := bound (27 + k)
    exact ⟨k, _, callee, paren, supplies, (applied _ _ _ _ _ supplies).2.1 rfl⟩

end Session

end LoxMachine
