import LoxMachine.Proofs.Session.Records
import LoxMachine.Proofs.Machine.Made

namespace LoxMachine

open Static

/-- What can happen in a session. -/
inductive Event where
  | step (c : Setting) (m : Machine)
  | native (f : Native) (function : HostFunction)

namespace Event

def openings : Event → List Opening
  | step c m => Machine.openings c m
  | native _ _ => []

def native? : Event → Option Native
  | step _ _ => none
  | native f _ => some f

end Event

namespace Machine

def passed (c : Setting) : Nat → Machine → List Machine
  | 0, _ => []
  | n + 1, m => if m.isOver then [] else m :: passed c n (step c m)

def steps (c : Setting) (n : Nat) (m : Machine) : List Event := (passed c n m).map (.step c)

theorem exists_of_mem_passed {c : Setting} {n : Nat} {m k : Machine} (member : k ∈ passed c n m) :
    ∃ j < n, k = run c j m ∧ k.isOver = false := by
  induction n generalizing m with
  | zero => cases member
  | succ n ih =>
    unfold passed at member
    cases halted : m.isOver with
    | true =>
      rw [halted] at member
      cases member
    | false =>
      rw [halted, if_neg Bool.false_ne_true] at member
      rcases List.mem_cons.mp member with rfl | further
      · exact ⟨0, Nat.succ_pos n, rfl, halted⟩
      · obtain ⟨j, sooner, same, going⟩ := ih further
        refine ⟨j + 1, Nat.succ_lt_succ sooner, ?_, going⟩
        rw [same, run, halted, if_neg Bool.false_ne_true]

theorem passed_succ (c : Setting) (n : Nat) (m : Machine) :
    passed c (n + 1) m =
      passed c n m ++ if (run c n m).isOver then [] else [run c n m] := by
  induction n generalizing m with
  | zero =>
    simp only [passed, run, List.nil_append]
    rfl
  | succ n ih =>
    rw [passed, ih (step c m), passed, run]
    cases halted : m.isOver with
    | true => simp [halted]
    | false => simp

theorem passed_mono (c : Setting) {n k : Nat} (early : n ≤ k) (m : Machine) :
    passed c n m <+: passed c k m := by
  induction early with
  | refl => exact List.prefix_refl _
  | step _ ih =>
    rw [passed_succ]
    exact ih.trans (List.prefix_append _ _)

theorem steps_mono (c : Setting) {n k : Nat} (early : n ≤ k) (m : Machine) :
    steps c n m <+: steps c k m := (passed_mono c early m).map _

theorem mem_steps_succ {c : Setting} {n : Nat} {m : Machine} (going : (run c n m).isOver = false) :
    .step c (run c n m) ∈ steps c (n + 1) m := by
  rw [steps, passed_succ, going]
  exact List.mem_map_of_mem (List.mem_append_right _ (List.mem_singleton_self _))

theorem exists_of_mem_steps {c d : Setting} {n : Nat} {m k : Machine}
    (member : .step d k ∈ steps c n m) : d = c ∧ ∃ j < n, k = run c j m ∧ k.isOver = false := by
  obtain ⟨other, passed, same⟩ := List.mem_map.mp member
  cases same
  exact ⟨rfl, exists_of_mem_passed passed⟩

theorem Made.passed {i : Inventory} {c : Setting} {m : Machine} (made : m.Made i) (n : Nat) :
    ∃ j, i.Extends j ∧ (Machine.run c n m).Made j ∧
      ∀ k ∈ Machine.passed c n m, ∃ h : Inventory, i.Extends h ∧ h.Extends j ∧ k.Made h := by
  induction n generalizing i m with
  | zero => exact ⟨i, .refl i, made, List.forall_mem_nil _⟩
  | succ n ih =>
    unfold Machine.run Machine.passed
    cases halted : m.isOver with
    | true =>
      rw [if_pos rfl, if_pos rfl]
      exact ⟨i, .refl i, made, List.forall_mem_nil _⟩
    | false =>
      rw [if_neg Bool.false_ne_true, if_neg Bool.false_ne_true]
      obtain ⟨next, first, stepped⟩ := made.step (c := c)
      obtain ⟨j, further, last, each⟩ := ih stepped
      refine ⟨j, first.trans further, last, List.forall_mem_cons.mpr ⟨?_, fun k member => ?_⟩⟩
      · exact ⟨i, .refl i, first.trans further, made⟩
      · obtain ⟨h, before, after, known⟩ := each k member
        exact ⟨h, first.trans before, after, known⟩

theorem openings_steps (c : Setting) (n : Nat) (m : Machine) :
    (steps c n m).flatMap Event.openings = openingsOf c n m := by
  unfold steps
  induction n generalizing m with
  | zero => rfl
  | succ n ih =>
    unfold passed openingsOf
    split
    · rfl
    · exact congrArg (openings c m ++ ·) (ih (step c m))

theorem natives_steps (c : Setting) (n : Nat) (m : Machine) :
    (steps c n m).filterMap Event.native? = [] := by
  rw [steps, List.filterMap_map]
  exact List.filterMap_eq_nil_iff.mpr fun _ _ => rfl

end Machine

theorem Store.Made.of_holds {i : Inventory} {s : Store} {a : Value} (made : s.Made i)
    (holds : s.Holds a) : a.Made i := by
  rcases holds with ⟨e, name, found⟩ | ⟨o, name, found⟩ | given
  · exact made.get found
  · exact made.field found
  · exact made.kept a given

namespace Session

def nativesOf (events : List Event) : List Native := events.filterMap Event.native?

/-- What opened each scope. -/
def ledgerOf (events : List Event) : List Opening := .global :: events.flatMap Event.openings

def eventsAt (s : Session) (depth : Nat) (program : List Stmt) (ds : Distances) (n : Nat)
    (events : List Event) : List Event :=
  events ++ Machine.steps (s.setting depth ds) n (s.machine .done [.sequence program])

/-- Sessions that a host can bring about, with the programs that were run, the values that the host
keeps, and everything that happened. -/
inductive History : List (List Stmt) → List Value → Session → List Event → Prop
  | empty (file : String) : History [] [] (Session.empty file) []
  | keep {programs held s events a} (history : History programs held s events)
      (holds : s.store.Holds a) : History programs (a :: held) s events
  | native {programs held s events} (history : History programs held s events) (name : String)
      (arity : Nat) (function : HostFunction) :
      History programs ((s.defineNative name arity function).2 :: held)
        (s.defineNative name arity function).1
        (events ++ [.native (s.store.addHost name arity function).2 function])
  | setGlobal {programs held s events a} (history : History programs held s events) (name : String)
      (known : a ∈ held ∨ ∃ l : Literal, a = l.toValue) :
      History programs held (s.setGlobal name a) events
  | entrust {programs held s events a} (history : History programs held s events)
      (known : a ∈ held ∨ ∃ l : Literal, a = l.toValue) : History programs held (s.entrust a) events
  | rejected {programs held s events t limits source rejection}
      (history : History programs held s events)
      (result : s.run limits source = (t, .error rejection)) : History programs held t events
  | ran {programs held s events source program ds} (history : History programs held s events)
      (limits : Limits) (accepted : s.Accepts source program ds)
      (ended : (s.shown limits program ds).outcome ≠ .unfinished) :
      History (program :: programs) held (s.after limits source program ds)
        (s.eventsAt limits.depth program ds limits.steps events)

variable {programs : List (List Stmt)} {held : List Value} {s : Session} {events : List Event}

theorem ledgerOf_eventsAt (s : Session) (depth : Nat) (program : List Stmt) (ds : Distances)
    (n : Nat) (events : List Event) : ledgerOf (s.eventsAt depth program ds n events) =
      s.ledgerAt depth program ds n (ledgerOf events) := by
  rw [ledgerOf, eventsAt, List.flatMap_append, Machine.openings_steps]
  rfl

theorem nativesOf_eventsAt (s : Session) (depth : Nat) (program : List Stmt) (ds : Distances)
    (n : Nat) (events : List Event) :
    nativesOf (s.eventsAt depth program ds n events) = nativesOf events := by
  rw [nativesOf, eventsAt, List.filterMap_append, Machine.natives_steps, List.append_nil]
  rfl

theorem records_of_history (history : History programs held s events) :
    Records programs held s (ledgerOf events) := by
  induction history with
  | empty file => exact .empty file
  | keep _ holds ih => exact .keep ih holds
  | native _ name arity function ih =>
    have same : ∀ events : List Event, ∀ f,
        ledgerOf (events ++ [.native f function]) = ledgerOf events := by
      intro events f
      rw [ledgerOf, List.flatMap_append]
      exact congrArg (Opening.global :: ·) (List.append_nil _)
    rw [same]
    exact .native ih name arity function
  | setGlobal _ name known ih => exact .setGlobal ih name known
  | entrust _ known ih => exact .entrust ih known
  | rejected _ result ih => exact .rejected ih result
  | ran _ limits accepted ended ih =>
    rw [ledgerOf_eventsAt]
    exact .ran ih limits accepted ended

theorem reachable_of_history (history : History programs held s events) :
    Reachable programs held s := reachable_of_records (records_of_history history)

/-- Every session that a host can bring about has a history. -/
theorem exists_history (reached : Reachable programs held s) :
    ∃ events, History programs held s events := by
  induction reached with
  | empty file => exact ⟨_, .empty file⟩
  | keep _ holds ih =>
    obtain ⟨events, history⟩ := ih
    exact ⟨events, .keep history holds⟩
  | native _ name arity function ih =>
    obtain ⟨events, history⟩ := ih
    exact ⟨_, .native history name arity function⟩
  | setGlobal _ name known ih =>
    obtain ⟨events, history⟩ := ih
    exact ⟨events, .setGlobal history name known⟩
  | entrust _ known ih =>
    obtain ⟨events, history⟩ := ih
    exact ⟨events, .entrust history known⟩
  | rejected _ result ih =>
    obtain ⟨events, history⟩ := ih
    exact ⟨events, .rejected history result⟩
  | ran _ limits accepted ended ih =>
    obtain ⟨events, history⟩ := ih
    exact ⟨_, .ran history limits accepted ended⟩

theorem eventsAt_mono (s : Session) (depth : Nat) (program : List Stmt) (ds : Distances)
    (events : List Event) {n k : Nat} (early : n ≤ k) :
    s.eventsAt depth program ds n events <+: s.eventsAt depth program ds k events :=
  (List.prefix_append_right_inj _).mpr (Machine.steps_mono _ early _)

theorem mem_eventsAt (s : Session) {depth : Nat} {program : List Stmt} {ds : Distances}
    (events : List Event) {n k : Nat} (early : k < n)
    (going : (s.point depth program ds k).isOver = false) :
    .step (s.setting depth ds) (s.point depth program ds k) ∈ s.eventsAt depth program ds n events :=
  List.mem_append_right _ ((Machine.steps_mono _ early _).subset (Machine.mem_steps_succ going))

theorem ledgerAt_mono (s : Session) (depth : Nat) (program : List Stmt) (ds : Distances)
    (ledger : List Opening) {n k : Nat} (early : n ≤ k) :
    s.ledgerAt depth program ds n ledger <+: s.ledgerAt depth program ds k ledger := by
  unfold ledgerAt
  rw [← Machine.openings_steps, ← Machine.openings_steps]
  exact (List.prefix_append_right_inj _).mpr ((Machine.steps_mono _ early _).flatMap _)

structure Made (i : Inventory) (held : List Value) (s : Session) : Prop where
  store : s.store.Made i
  scope : s.scope < i.scopes
  held : ∀ a ∈ held, a.Made i

theorem Made.known {i : Inventory} (made : s.Made i held) {a : Value}
    (known : a ∈ held ∨ ∃ l : Literal, a = l.toValue) : a.Made i :=
  of_known made.held (made_toValue i) known

theorem functions_of_becomes {s t : Store} (becomes : s.Becomes t) :
    t.host.map (·.function) = s.host.map (·.function) := by
  induction becomes with
  | refl => rfl
  | tail _ change ih =>
    rw [← ih]
    cases change with
    | define | openScope | identify | instantiate | setField => rfl
    | callHost f arguments => exact Store.functions_callHost f arguments

theorem size_host_of_becomes {s t : Store} (becomes : s.Becomes t) :
    t.host.size = s.host.size := Store.size_of_functions (functions_of_becomes becomes)

def Lasting (events : List Event) (i : Inventory) : Prop :=
  ∀ c m, .step c m ∈ events → ∃ j : Inventory, j.Extends i ∧ m.Made j

theorem Lasting.later {i j : Inventory} (lasting : Lasting events i) (grown : i.Extends j) :
    Lasting events j := by
  intro c m member
  obtain ⟨before, older, made⟩ := lasting c m member
  exact ⟨before, older.trans grown, made⟩

/-- A run makes what it needs, in each of its states, and adds nothing to the host. -/
theorem Lasting.eventsAt {i : Inventory} (lasting : Lasting events i) (made : s.Made i held)
    (depth : Nat) (program : List Stmt) (ds : Distances) (n : Nat) :
    ∃ j, i.Extends j ∧ j.natives = i.natives ∧ (s.point depth program ds n).Made j ∧
      (∀ a ∈ held, a.Made j) ∧ Lasting (s.eventsAt depth program ds n events) j := by
  have start : (s.machine .done [.sequence program]).Made i :=
    ⟨made.store, made.scope, List.forall_mem_singleton.mpr True.intro, True.intro⟩
  obtain ⟨j, grown, later, passed⟩ := start.passed (c := s.setting depth ds) n
  refine ⟨j, grown, ?_, later, fun a member => (made.held a member).later grown, ?_⟩
  · have size := size_host_of_becomes
      (Machine.changes_run (s.setting depth ds) (s.machine .done [.sequence program]) n)
    refine (grown.natives.eq_of_length ?_).symm
    rw [made.store.hosts, later.store.hosts]
    exact size.symm
  · intro c m member
    rcases List.mem_append.mp member with before | now
    · exact lasting.later grown c m before
    · obtain ⟨k, here, same⟩ := List.mem_map.mp now
      cases same
      obtain ⟨h, _, older, known⟩ := passed m here
      exact ⟨h, older, known⟩

theorem Made.point {i : Inventory} (made : s.Made i held) (depth : Nat) (program : List Stmt)
    (ds : Distances) (n : Nat) :
    ∃ j, i.Extends j ∧ j.natives = i.natives ∧ (s.point depth program ds n).Made j ∧
      ∀ a ∈ held, a.Made j := by
  have nothing : Lasting [] i := fun _ _ absent => nomatch absent
  obtain ⟨j, grown, natives, point, kept, _⟩ := nothing.eventsAt made depth program ds n
  exact ⟨j, grown, natives, point, kept⟩

/-- Nothing in a session was there before it was made, its functions of the host are those that were
added, and all that was made is there still. -/
theorem lasting_of_history (history : History programs held s events) :
    ∃ i : Inventory, i.natives = nativesOf events ∧ s.Made i held ∧ Lasting events i := by
  induction history with
  | empty file =>
    have made : (Session.empty file).Made ⟨1, [], [], []⟩ [] :=
      ⟨Store.made_initial, Nat.one_pos, fun _ absent => nomatch absent⟩
    exact ⟨_, rfl, made, fun _ _ absent => nomatch absent⟩
  | keep _ holds ih =>
    obtain ⟨i, natives, made, lasting⟩ := ih
    refine ⟨i, natives, ⟨made.store, made.scope, List.forall_mem_cons.mpr ⟨?_, made.held⟩⟩, lasting⟩
    exact made.store.of_holds holds
  | @native programs held s events _ name arity function ih =>
    obtain ⟨i, natives, made, lasting⟩ := ih
    obtain ⟨store, value⟩ := made.store.addHost name arity function
    have grown := i.extends_addNative (s.store.addHost name arity function).2
    refine ⟨_, ?_, ⟨store.define _ name value, made.scope, List.forall_mem_cons.mpr ⟨value, ?_⟩⟩, ?_⟩
    · rw [nativesOf, List.filterMap_append]
      exact congrArg (· ++ [_]) natives
    · exact fun a member => (made.held a member).later grown
    · intro c m member
      rcases List.mem_append.mp member with before | now
      · exact lasting.later grown c m before
      · cases List.mem_singleton.mp now
  | setGlobal _ name known ih =>
    obtain ⟨i, natives, made, lasting⟩ := ih
    have value := made.known known
    exact ⟨i, natives, ⟨made.store.define _ name value, made.scope, made.held⟩, lasting⟩
  | entrust _ known ih =>
    obtain ⟨i, natives, made, lasting⟩ := ih
    have each := List.forall_mem_singleton.mpr (made.known known)
    exact ⟨i, natives, ⟨made.store.keep each, made.scope, made.held⟩, lasting⟩
  | rejected _ result ih =>
    obtain ⟨i, natives, made, lasting⟩ := ih
    rw [eq_of_rejected result, read_eq]
    exact ⟨i, natives, ⟨made.store, made.scope, made.held⟩, lasting⟩
  | ran _ limits accepted ended ih =>
    obtain ⟨i, natives, made, lasting⟩ := ih
    obtain ⟨j, grown, same, point, kept, later⟩ :=
      lasting.eventsAt made limits.depth _ _ limits.steps
    refine ⟨j, ?_, ⟨point.store, point.scope, kept⟩, later⟩
    rw [same, natives, nativesOf_eventsAt]

theorem made_of_history (history : History programs held s events) :
    ∃ i : Inventory, i.natives = nativesOf events ∧ s.Made i held := by
  obtain ⟨i, natives, made, _⟩ := lasting_of_history history
  exact ⟨i, natives, made⟩

theorem made_of_mem_eventsAt {s : Session} {i : Inventory} (made : s.Made i held)
    (earlier : ∀ c m, .step c m ∈ events → ∃ i, m.Made i) {depth n : Nat} {program : List Stmt}
    {ds : Distances} {c : Setting} {m : Machine}
    (member : .step c m ∈ s.eventsAt depth program ds n events) : ∃ i, m.Made i := by
  rcases List.mem_append.mp member with before | now
  · exact earlier c m before
  · obtain ⟨_, j, _, same, _⟩ := Machine.exists_of_mem_steps now
    obtain ⟨i, _, _, point, _⟩ := made.point depth program ds j
    exact ⟨i, same ▸ point⟩

theorem made_of_event (history : History programs held s events) :
    ∀ c m, .step c m ∈ events → ∃ i, m.Made i := by
  obtain ⟨_, _, _, lasting⟩ := lasting_of_history history
  intro c m member
  obtain ⟨j, _, made⟩ := lasting c m member
  exact ⟨j, made⟩

end Session

end LoxMachine
