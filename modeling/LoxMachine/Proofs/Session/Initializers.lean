import LoxMachine.Proofs.Machine.Returns
import LoxMachine.Proofs.Machine.Lookups
import LoxMachine.Proofs.Session.Shape

namespace LoxMachine

open Static

namespace Machine

variable {c : Setting} {m base : Machine} {arguments : List Value} {f : Closure}

def DeclaresFunction (m : Machine) (f : Closure) : Prop :=
  ∃ decl, m.control = .execute (.function decl) ∧
    f = ⟨m.store.nextIdentity, decl, m.scope, false⟩

theorem plain_of_isBody {G : Occurrence → Prop} {w : Past} {s : Store} {i : Inventory}
    (store : s.Fits G w.shape) (fits : f.Fits (s.world G w.shape)) (made : f.Made i)
    (ordinary : ∀ origin id, origin.id? = some id → G (.scope origin) → "this" ∉ origin.names)
    (body : w.IsBody f.scope) : f.isInitializer = false := by
  apply Bool.eq_false_iff.mpr
  intro initializer
  obtain ⟨_, _, _, _, object⟩ := fits
  obtain ⟨o, opened, executes⟩ := body
  have shape := Past.shape_of_opening opened
  have named := store.named _ _ _ (made.bound initializer) (object initializer) shape
  have known := store.known _ (List.mem_of_getElem? shape)
  cases o with
  | global => cases named
  | block id body => exact ordinary _ id rfl known named
  | call g =>
    obtain ⟨_, ⟨id, _, _, _⟩, _, _⟩ := g
    exact ordinary _ id rfl known named
  | receiver _ _ _ | heritage _ _ _ => exact executes

theorem returned_of_plain (plain : f.isInitializer = false) (c : Setting) (j : Nat)
    (halted : (callAlone c base (.closure f) arguments j).isOver = true) :
    (∃ g, (callAlone c base (.closure f) arguments j).control = .failing g) ∨
      ∃ i < j, ∃ a, (callAlone c base (.closure f) arguments i).GivesBack base.scope none a ∧
        (callAlone c base (.closure f) arguments j).control = .value a := by
  rcases ends_of_enter (m := base.alone) rfl halted with failed | ⟨i, before, a, gives, same⟩
  · exact .inl failed
  · have initialized : f.initialized = none := by
      rw [Closure.initialized, plain]
      rfl
    rw [initialized] at gives same
    exact .inr ⟨i, before, a, gives, congrArg control same⟩

theorem instance_of_class {k : Class} (c : Setting) (j : Nat)
    (halted : (callAlone c base (.cls k) arguments j).isOver = true) :
    (∃ g, (callAlone c base (.cls k) arguments j).control = .failing g) ∨
      (callAlone c base (.cls k) arguments j).control =
        .value (.object ⟨base.store.fields.size, k⟩) :=
  ends_of_instantiate (m := base.alone) rfl halted

end Machine

namespace Session

open Machine (callAlone)

variable {programs : List (List Stmt)} {held : List Value} {s : Session} {events : List Event}
  {source : String} {program : List Stmt} {ds : Distances} {depth n : Nat}

theorem receiver_of_looksUp (history : History programs held s events)
    (accepted : s.Accepts source program ds) {c : Setting} {m : Machine} {name : String}
    {method : Method} {a : Value} {f : Closure}
    (member : .step c m ∈ s.eventsAt depth program ds n events)
    (looks : m.LooksUp c name method a f) :
    (s.ledgerAt depth program ds n (ledgerOf events))[f.scope]? = some (.receiver method a f) := by
  have records := records_of_history history
  obtain ⟨_, recorded, _⟩ := accepted.recorded (sound_of_reachable (reachable_of_history history))
    (accounts_of_records records).1 depth n
  have opened : .receiver method a f ∈ s.ledgerAt depth program ds n (ledgerOf events) := by
    rw [← ledgerOf_eventsAt]
    exact List.mem_cons_of_mem _
      (List.mem_flatMap.mpr ⟨_, member, Machine.mem_openings_of_looksUp looks⟩)
  obtain ⟨e, there⟩ := List.mem_iff_getElem?.mp opened
  obtain ⟨_, _, scope, _⟩ := recorded.store.openings e _ there
  rw [scope]
  exact there

theorem point_of_calls {base : Machine} {target : Callable} {arguments : List Value}
    (calls : (s.point depth program ds n).Calls base target arguments) (j : Nat) :
    ∃ i ≤ j, s.point depth program ds (n + (i + 1)) =
      (Machine.callAlone (s.setting depth ds) base target arguments j).above base.frames := by
  obtain ⟨i, early, same⟩ := Machine.run_of_calls (c := s.setting depth ds) calls j
  refine ⟨i, early, ?_⟩
  unfold point at same ⊢
  rw [Machine.run_add]
  exact same

theorem ordinary_of_scope (accepted : s.Accepts source program ds) (sound : s.Sound programs held)
    {origin : Origin} {name : String} {id : NodeId} (opener : origin.id? = some id)
    (opened : Among (program :: programs) (.scope origin)) (named : name ∈ origin.names) :
    name ≠ "this" ∧ name ≠ "super" := by
  obtain ⟨own, member, here⟩ := opened
  obtain ⟨o, occurs, declares⟩ := declared_of_scope opener here named
  exact (accepted.placed_all sound o ⟨own, member, occurs⟩).ordinary origin name declares

theorem initializer_of_looksUp (history : History programs held s events) {c : Setting}
    {m : Machine} {method : Method} {name : String} {a : Value} {f : Closure}
    (member : .step c m ∈ s.eventsAt depth program ds n events)
    (looks : m.LooksUp c name method a f) : f.isInitializer = (name == "init") := by
  obtain ⟨i, _, made⟩ := made_of_history history
  obtain ⟨j, here⟩ := made_of_mem_eventsAt made (made_of_event history) member
  rw [Machine.isInitializer_of_looksUp looks]
  exact (Machine.made_of_looksUp here looks).initializer

section Calls

variable (history : History programs held s events) (accepted : s.Accepts source program ds)
  {base : Machine} {arguments : List Value}

include history accepted

/-- A call of a function that was made by looking up a method named `init` gives back the object
that the method is bound to. -/
theorem instance_of_init {f : Closure}
    (calls : (s.point depth program ds n).Calls base (.closure f) arguments) (j : Nat)
    {c : Setting} {m : Machine} {method : Method} {a : Value}
    (member : .step c m ∈ s.eventsAt depth program ds (n + 1) events)
    (looks : m.LooksUp c "init" method a f) :
    let last := Machine.callAlone (s.setting depth ds) base (.closure f) arguments j
    last.isOver = true →
      (∃ g, last.control = .failing g) ∨ ∃ o, a = .object o ∧ last.control = .value a := by
  intro last halted
  have sound := sound_of_reachable (reachable_of_history history)
  have accounts := (accounts_of_records (records_of_history history)).1
  have opened := receiver_of_looksUp history accepted member looks
  rcases Machine.ends_of_enter (m := base.alone) rfl halted with failed | ⟨i, _, b, _, same⟩
  · exact .inl failed
  · obtain ⟨k, _, here⟩ := point_of_calls calls i
    obtain ⟨fits, recorded, _⟩ := accepted.recorded sound accounts depth (n + (k + 1))
    have grown : s.ledgerAt depth program ds (n + 1) (ledgerOf events) <+:
        s.ledgerAt depth program ds (n + (k + 1)) (ledgerOf events) :=
      ledgerAt_mono s depth program ds _ (by omega)
    -- at the end of the body the scope of the receiver still names it
    obtain ⟨around, named, _⟩ := recorded.store.openings _ _ (getElem?_mono grown opened)
    obtain ⟨o, rfl⟩ := fits.store.objects _ _ (fits.store.ne_globals around) named
    rw [here] at named
    refine .inr ⟨o, rfl, ?_⟩
    have initialized : f.initialized = some f.scope := by
      rw [Closure.initialized, initializer_of_looksUp history member looks]
      rfl
    rw [initialized] at same
    let inside := Machine.callAlone (s.setting depth ds) base (.closure f) arguments i
    exact (congrArg Machine.control same).trans
      (Machine.control_leaveCall (m := { inside with frames := [] }) named base.scope b)

/-- A function that is called was made by looking up a method named `init`, or is no initializer. -/
theorem looked_up_or_plain {f : Closure}
    (calls : (s.point depth program ds n).Calls base (.closure f) arguments) :
    (∃ c m method a, .step c m ∈ s.eventsAt depth program ds (n + 1) events ∧
      m.LooksUp c "init" method a f) ∨ f.isInitializer = false := by
  have sound := sound_of_reachable (reachable_of_history history)
  have accounts := (accounts_of_records (records_of_history history)).1
  obtain ⟨i, _, made⟩ := made_of_history history
  obtain ⟨k, _, _, there, _⟩ := made.point depth program ds n
  obtain ⟨fits, recorded, _⟩ := accepted.recorded sound accounts depth n
  let w : Past := ⟨program :: programs, s.ledgerAt depth program ds n (ledgerOf events)⟩
  let m := s.point depth program ds n
  let Known := fun a : Value =>
    a.Fits (m.world (Among (program :: programs)) w.shape) ∧ a.Made k ∧ a.Recorded w
  have hand : ∀ a, m.control = .value a → Known a := by
    intro a control
    have at_hand := there.control
    have known := recorded.control
    rw [control] at at_hand known
    exact ⟨Machine.fits_of_hand fits control, at_hand, known⟩
  have waiting : ∀ a callee paren given rest, .argument a callee paren given rest ∈ m.frames →
      Known a := by
    intro a callee paren given rest waits
    obtain ⟨_, expects⟩ := Machine.expects_of_fits fits
    exact ⟨Machine.fits_of_waiting expects.frames waits, (there.frames _ waits).1,
      (recorded.frames _ waits).1⟩
  rcases Machine.closure_of_calls hand waiting calls with
    ⟨fit, kept, declared, stands⟩ | ⟨method, a, looks⟩
  -- a function that was there stands where a statement declared it, or in the scope of a receiver
  · rcases stands with body | ⟨method, a, opened⟩
    · refine .inr (Machine.plain_of_isBody fits.store fit kept ?_ body)
      exact fun origin id opener known named =>
        (ordinary_of_scope accepted sound opener known named).1 rfl
    · have member := List.mem_of_getElem? opened
      change _ ∈ s.ledgerAt depth program ds n (ledgerOf events) at member
      rw [← ledgerOf_eventsAt] at member
      rcases List.mem_cons.mp member with absent | member
      · cases absent
      obtain ⟨event, happened, opens⟩ := List.mem_flatMap.mp member
      cases event with
      | native f function => cases opens
      | step c m =>
        obtain ⟨name, looks⟩ := Machine.looksUp_of_mem_openings opens
        have same := initializer_of_looksUp history happened looks
        cases plain : f.isInitializer with
        | false => exact .inr rfl
        | true =>
          rw [plain] at same
          cases eq_of_beq same.symm
          have later := eventsAt_mono s depth program ds events (Nat.le_succ n)
          exact .inl ⟨c, m, method, a, later.subset happened, looks⟩
  · have now := s.mem_eventsAt events (Nat.lt_succ_self n) (Machine.going_of_calls calls)
    exact .inl ⟨_, _, method, a, now, looks⟩

end Calls

/-- The function was made by looking up a method named `init`, with the value as its receiver. -/
def InitOf (past : List Event) (f : Closure) (a : Value) : Prop :=
  ∃ c m method, .step c m ∈ past ∧ m.LooksUp c "init" method a f

def DeclaredIn (past : List Event) (f : Closure) : Prop :=
  ∃ c m, .step c m ∈ past ∧ m.DeclaresFunction f

/-- In every run of an accepted program, a call of a class that comes to its end fails or gives an
object of the class that nothing reached before. A call of a function that was made by looking up
a method named `init` fails or gives the object that the method was bound to, and a call of any other
function, like one that a statement declared, fails or gives back what its body returns. -/
theorem given_back_of_calls (history : History programs held s events)
    (accepted : s.Accepts source program ds) (depth n : Nat) (base : Machine)
    (arguments : List Value) (j : Nat) :
    let m := s.point depth program ds n
    let past := s.eventsAt depth program ds (n + 1) events
    let after := fun target i => Machine.callAlone (s.setting depth ds) base target arguments i
    (∀ target, m.Calls base target arguments →
      ∃ i ≤ j, s.point depth program ds (n + (i + 1)) = (after target j).above base.frames) ∧
    (∀ k, m.Calls base (.cls k) arguments → (after (.cls k) j).isOver = true →
      (∃ g, (after (.cls k) j).control = .failing g) ∨
        ∃ o, (after (.cls k) j).control = .value (.object o) ∧ o.cls = k ∧
          ∀ older, m.Reaches held (.value (.object older)) → older.id ≠ o.id) ∧
    (∀ f, m.Calls base (.closure f) arguments → (after (.closure f) j).isOver = true →
      (∃ g, (after (.closure f) j).control = .failing g) ∨
        ((∀ a, InitOf past f a → (∃ o, a = .object o) ∧ (after (.closure f) j).control = .value a) ∧
          ((∀ a, ¬ InitOf past f a) →
            ∃ i < j, ∃ a, (after (.closure f) i).GivesBack base.scope none a ∧
              (after (.closure f) j).control = .value a))) ∧
    ∀ f, DeclaredIn past f → ∀ a, ¬ InitOf past f a := by
  intro m past after
  refine ⟨fun target calls => point_of_calls calls j, fun k calls halted => ?_,
    fun f calls halted => ?_, ?_⟩
  · obtain ⟨i, _, made⟩ := made_of_history history
    obtain ⟨here, _, _, there, kept⟩ := made.point depth program ds n
    obtain ⟨frames, rfl⟩ := Machine.base_of_calls calls
    rcases Machine.instance_of_class _ j halted with failed | gives
    · exact .inl failed
    refine .inr ⟨_, gives, rfl, fun older reaches => ?_⟩
    -- the objects that were made are as many as there are tables of fields
    have known : here.objects[older.id]? = some older := made_of_reaches there kept reaches
    obtain ⟨bound, _⟩ := List.getElem?_eq_some_iff.mp known
    rw [there.store.counted] at bound
    exact Nat.ne_of_lt bound
  · rcases looked_up_or_plain history accepted calls with ⟨c, m, method, a, member, looks⟩ | plain
    · rcases instance_of_init history accepted calls j member looks halted with
        failed | ⟨o, same, gives⟩
      · exact .inl failed
      refine .inr ⟨?_, fun never => absurd ⟨c, m, method, member, looks⟩ (never a)⟩
      -- two lookups that made it had the same receiver, as each is what the call gives
      rintro b ⟨_, _, _, other, also⟩
      rcases instance_of_init history accepted calls j other also halted with
        ⟨g, failed⟩ | ⟨o, same, gives⟩
      · cases gives.symm.trans failed
      · exact ⟨⟨o, same⟩, gives⟩
    · rcases Machine.returned_of_plain plain (s.setting depth ds) j halted with failed | gives
      · exact .inl failed
      refine .inr ⟨?_, fun _ => gives⟩
      rintro a ⟨_, _, _, member, looks⟩
      have initializer := initializer_of_looksUp history member looks
      rw [plain] at initializer
      cases initializer
  · rintro f ⟨_, _, _, _, _, rfl⟩ a ⟨_, _, _, member, looks⟩
    cases initializer_of_looksUp history member looks

def initializingDecl (id : NodeId) (value : Option Expr) : FunctionDecl :=
  .mk (id + 1) (firstLine "init") [] [.returns id ⟨.keyword .returnWord, "return", 1⟩ value]

/-- An inherited initializer that a class call runs, that is kept in a variable, and a function of
the same name. -/
def initializingProgram : List Stmt :=
  [.classDecl 3 (firstLine "A") none [initializingDecl 1 none],
    .classDecl 5 (firstLine "B") (some ⟨4, firstLine "A"⟩) [],
    .var 9 (firstLine "g")
      (some (.get 8 (.call 7 (.read ⟨6, firstLine "B"⟩) ⟨.symbol .rightParen, ")", 1⟩ [])
        (firstLine "init"))),
    .expression 12 (.call 11 (.read ⟨10, firstLine "g"⟩) ⟨.symbol .rightParen, ")", 1⟩ []),
    .function (initializingDecl 14 (some (.literal 13 (.bool true)))),
    .expression 18 (.call 17 (.read ⟨16, firstLine "init"⟩) ⟨.symbol .rightParen, ")", 1⟩ [])]

def initializingText : String :=
  "class A { init() { return; } } class B < A {} var g = B().init; g();" ++
    " fun init() { return true; } init();"

def initializingPoint (n : Nat) : Machine := (empty "main").point 9 initializingProgram [] n

def initializingClass : Class :=
  ⟨1, "B", some ⟨0, "A", none, [("init", ⟨initializingDecl 1 none, 0, true⟩)]⟩, []⟩

def keptInitializer : Closure := ⟨3, initializingDecl 1 none, 4, true⟩

def plainInit : Closure := ⟨4, initializingDecl 14 (some (.literal 13 (.bool true))), 0, false⟩

def Completes (n : Nat) (target : Callable) (j : Nat) (base : Machine) : Prop :=
  (initializingPoint n).Calls base target [] ∧
    let last := callAlone ((empty "main").setting 9 []) base target [] j
    last.isOver = true ∧ ∃ a, last.control = .value a

theorem completes_class : ∃ base, Completes 11 (.cls initializingClass) 6 base :=
  ⟨_, @Machine.Calls.first _ _ _ _ (.cls initializingClass) rfl rfl rfl, rfl, _, rfl⟩

theorem completes_kept : ∃ base, Completes 23 (.closure keptInitializer) 5 base :=
  ⟨_, @Machine.Calls.first _ _ _ _ (.closure keptInitializer) rfl rfl rfl, rfl, _, rfl⟩

theorem completes_plain : ∃ base, Completes 35 (.closure plainInit) 7 base :=
  ⟨_, @Machine.Calls.first _ _ _ _ (.closure plainInit) rfl rfl rfl, rfl, _, rfl⟩

theorem initOf_kept :
    InitOf ((empty "main").eventsAt 9 initializingProgram [] 24 []) keptInitializer
      (.object ⟨0, initializingClass⟩) :=
  ⟨_, initializingPoint 17, ⟨initializingDecl 1 none, 0, true⟩,
    (empty "main").mem_eventsAt [] (by decide) (by rfl),
    @Machine.LooksUp.property _ _ _ (firstLine "init") _ _ rfl rfl rfl rfl⟩

theorem declaredIn_plain :
    DeclaredIn ((empty "main").eventsAt 9 initializingProgram [] 36 []) plainInit :=
  ⟨_, initializingPoint 30, (empty "main").mem_eventsAt [] (by decide) (by rfl), _, rfl, rfl⟩

/-- The class call gives a new object and the kept initializer gives it again; the function gives
what it returns. -/
theorem given_back_of_initializing :
    let s := empty "main"
    let after := fun target base j => callAlone (s.setting 9 []) base target [] j
    s.Accepts initializingText initializingProgram [] ∧
    (∃ base, Completes 11 (.cls initializingClass) 6 base ∧
      ∃ o, (after (.cls initializingClass) base 6).control = .value (.object o) ∧
        o.cls = initializingClass) ∧
    (∃ base, Completes 23 (.closure keptInitializer) 5 base ∧
      (after (.closure keptInitializer) base 5).control =
        .value (.object ⟨0, initializingClass⟩)) ∧
    ∃ base, Completes 35 (.closure plainInit) 7 base ∧
      ∃ i < 7, ∃ a, (after (.closure plainInit) base i).GivesBack base.scope none a ∧
        (after (.closure plainInit) base 7).control = .value a := by
  have read : (empty "main").read initializingText =
      ({ empty "main" with nextId := 19 }, .ok initializingProgram) := by cbv
  have accepted : (empty "main").Accepts initializingText initializingProgram [] :=
    ⟨congrArg Prod.snd read, by rfl⟩
  have given := fun n base j => given_back_of_calls (.empty "main") accepted 9 n base [] j
  obtain ⟨first, called⟩ := completes_class
  obtain ⟨second, kept⟩ := completes_kept
  obtain ⟨third, plain⟩ := completes_plain
  refine ⟨accepted, ⟨first, called, ?_⟩, ⟨second, kept, ?_⟩, ⟨third, plain, ?_⟩⟩
  · obtain ⟨calls, halted, a, works⟩ := called
    rcases (given 11 first 6).2.1 _ calls halted with ⟨g, failed⟩ | ⟨o, gives, same, _⟩
    · cases works.symm.trans failed
    · exact ⟨o, gives, same⟩
  · obtain ⟨calls, halted, a, works⟩ := kept
    rcases (given 23 second 5).2.2.1 _ calls halted with ⟨g, failed⟩ | ⟨gives, _⟩
    · cases works.symm.trans failed
    · exact (gives _ initOf_kept).2
  · obtain ⟨calls, halted, a, works⟩ := plain
    obtain ⟨_, _, function, own⟩ := given 35 third 7
    rcases function _ calls halted with ⟨g, failed⟩ | ⟨_, gives⟩
    · cases works.symm.trans failed
    · exact gives (own _ declaredIn_plain)

end Session

end LoxMachine
