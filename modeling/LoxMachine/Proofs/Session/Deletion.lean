import Mathlib.Order.Monotone.Basic
import LoxMachine.Proofs.Session.Joined
import LoxMachine.Proofs.Session.Renamed

namespace LoxMachine.Session

/-- A value that a host can hand over: one that a program could write down, or one of those that it
was given, counted from the first. -/
inductive Given where
  | literal (value : Literal)
  | held (index : Nat)

/-- What a host does with a session. -/
inductive Action where
  | run (limits : Limits) (source : String)
  | native (name : String) (arity : Nat) (function : HostFunction)
  | define (name : String) (given : Given)
  | entrust (given : Given)
  | get (name : String)

/-- What the host gets for it. -/
inductive Answer where
  | ran (result : Except Rejection Run)
  | native (value : Value)
  | defined
  | got (result : Except ScopeError Value)

/-- A session and the values that its host was given, the first one first. -/
structure Hosted where
  session : Session
  held : List Value

/-- A host with a session without global names; the first thing that it does may be to add the
clock that every program finds. -/
def Hosted.new (file : String) : Hosted := ⟨.empty file, []⟩

def Given.value (values : List Value) : Given → Value
  | literal value => value.toValue
  | held index => values[index]?.getD .nil

namespace Hosted

def act (h : Hosted) : Action → Hosted × Answer
  | .run limits source =>
    let (session, result) := h.session.run limits source
    ({ h with session }, .ran result)
  | .native name arity function =>
    let (session, value) := h.session.defineNative name arity function
    (⟨session, h.held ++ [value]⟩, .native value)
  | .define name given =>
    ({ h with session := h.session.setGlobal name (given.value h.held) }, .defined)
  | .entrust given => ({ h with session := h.session.entrust (given.value h.held) }, .defined)
  | .get name =>
    match h.session.getGlobal name with
    | .ok value => ({ h with held := h.held ++ [value] }, .got (.ok value))
    | .error error => (h, .got (.error error))

/-- Does one thing after the other, and gives the answers. -/
def perform (h : Hosted) : List Action → Hosted × List Answer
  | [] => (h, [])
  | action :: actions =>
    let (next, answer) := h.act action
    let (last, answers) := next.perform actions
    (last, answer :: answers)

end Hosted

/-- Without what stands at the given places, counted from zero. -/
def without {α : Type} : (Nat → Bool) → List α → List α
  | _, [] => []
  | gone, a :: rest =>
    if gone 0 then without (fun i => gone (i + 1)) rest
    else a :: without (fun i => gone (i + 1)) rest

namespace Answer

/-- The text was not run. -/
def isRejection : Answer → Bool
  | ran (.error _) => true
  | _ => false

def isCutOff : Answer → Bool
  | ran (.ok ⟨.unfinished, _, _⟩) => true
  | _ => false

def rename (f : NodeId → NodeId) : Answer → Answer
  | ran (.ok r) => ran (.ok (r.rename f))
  | ran (.error rejection) => ran (.error rejection)
  | native value => native (value.rename f)
  | defined => defined
  | got result => got (result.map (·.rename f))

/-- Why something was not done. -/
inductive Fault where
  | rejected (rejection : Rejection)
  | failed (failure : Failure)
  | absent (error : ScopeError)

/-- What the host sees of an answer: the printed text, the value and the error. -/
structure Shown where
  printed : String
  value : Option View
  fault : Option Fault

def shown : Answer → Shown
  | ran (.error rejection) => ⟨"", none, some (.rejected rejection)⟩
  | ran (.ok r) =>
    match r.outcome with
    | .value v | .returned v => ⟨r.output, some v.view, none⟩
    | .failed failure => ⟨r.output, none, some (.failed failure)⟩
    | .done | .unfinished => ⟨r.output, none, none⟩
  | native value => ⟨"", some value.view, none⟩
  | defined => ⟨"", none, none⟩
  | got (.ok value) => ⟨"", some value.view, none⟩
  | got (.error error) => ⟨"", none, some (.absent error)⟩

end Answer

def Action.Discreet : Action → Prop
  | native _ _ function => function.Discreet
  | _ => True

/-- The second host has what the first one has, with other numbers. -/
structure Hosted.Renamed (f : NodeId → NodeId) (h k : Hosted) : Prop where
  session : h.session.Renamed f k.session
  held : k.held = h.held.map (·.rename f)

theorem nextId_of_run (s : Session) (limits : Limits) (source : String) :
    (s.run limits source).1.nextId = (s.read source).1.nextId := by
  rw [run_eq]
  cases (s.read source).2 with
  | error rejection => rfl
  | ok program =>
    simp only
    cases distancesOf program <;> rfl

theorem Hosted.nextId_le_act (h : Hosted) (action : Action) :
    h.session.nextId ≤ (h.act action).1.session.nextId := by
  cases action with
  | run limits source =>
    change _ ≤ (h.session.run limits source).1.nextId
    rw [nextId_of_run]
    exact nextId_of_read h.session source
  | native | define | entrust => exact Nat.le_refl _
  | get name =>
    simp only [act]
    split <;> exact Nat.le_refl _

theorem Hosted.discreet_act {h : Hosted} (discreet : h.session.store.Discreet) {action : Action}
    (allowed : action.Discreet) : (h.act action).1.session.store.Discreet := by
  cases action with
  | run limits source =>
    change (h.session.run limits source).1.store.Discreet
    have read : (h.session.read source).1.store = h.session.store := by rw [read_eq]
    rw [run_eq]
    cases (h.session.read source).2 with
    | error rejection => exact read ▸ discreet
    | ok program =>
      simp only
      cases distancesOf program with
      | error error => exact read ▸ discreet
      | ok ds => exact Machine.discreet_run _ _ (read ▸ discreet)
  | native name arity function =>
    intro index entry found
    change (h.session.store.host.push ⟨function, 0⟩)[index]? = some entry at found
    rw [Array.getElem?_push] at found
    split at found
    · cases found
      exact allowed
    · exact discreet index entry found
  | define name given => exact discreet
  | entrust given => exact discreet
  | get name =>
    simp only [act]
    split <;> exact discreet

section Act

variable {f : NodeId → NodeId} {h k : Hosted} {d : Nat}

theorem Hosted.Renamed.value (renamed : h.Renamed f k) (given : Given) :
    given.value k.held = (given.value h.held).rename f := by
  rw [renamed.held]
  cases given with
  | literal l => exact (Value.mapCode_toValue _ l).symm
  | held index =>
    simp only [Given.value, List.getElem?_map]
    cases h.held[index]? <;> rfl

/-- A text is run alike if the numbers that it uses up are changed like those that are free. -/
theorem Renamed.run {s t : Session} (renamed : s.Renamed f t) (increasing : StrictMono f)
    (discreet : s.store.Discreet) (later : t.nextId = s.nextId + d) (source : String)
    (fresh : ∀ i, s.nextId ≤ i → i < (s.read source).1.nextId → f i = i + d) (limits : Limits) :
    (s.run limits source).1.Renamed f (t.run limits source).1 ∧
      Answer.ran (t.run limits source).2 = (Answer.ran (s.run limits source).2).rename f := by
  have reading := (read_shift later source).1
  have read : (s.read source).1.Renamed f (t.read source).1 := by
    rw [read_eq s, read_eq t]
    exact ⟨renamed.file, renamed.store, renamed.scope, renamed.distances⟩
  have unchanged : (s.read source).1.store.Discreet := by
    rw [read_eq]
    exact discreet
  rw [run_eq, run_eq, reading]
  cases result : (s.read source).2 with
  | error rejection => exact ⟨read, rfl⟩
  | ok program =>
    simp only [Except.map]
    cases distances : distancesOf program with
    | error error =>
      rw [distancesOf_rename, distances]
      exact ⟨read, rfl⟩
    | ok ds =>
      have accepted : s.Accepts source program ds := ⟨result, distances⟩
      -- every number of the program is one that this reading has used up
      have same : stmtsRename (· + d) program = stmtsRename f program := by
        apply stmtsRename_congr
        intro i member
        obtain ⟨low, high⟩ := accepted.built.1.2.2 i member
        exact (fresh i low high).symm
      have apart : ∀ i j, f i = f j → i = j := fun _ _ equal => increasing.injective equal
      obtain ⟨left, shown⟩ := read.interpret apart unchanged limits program ds
      rw [same, distancesOf_rename, distances]
      exact ⟨left, congrArg (fun r => Answer.ran (.ok r)) shown⟩

/-- Whatever two hosts do together, they go on with what is the same but for the numbers. -/
theorem Hosted.Renamed.act (renamed : h.Renamed f k) (increasing : StrictMono f)
    (discreet : h.session.store.Discreet) (later : k.session.nextId = h.session.nextId + d)
    (action : Action)
    (fresh : ∀ i, h.session.nextId ≤ i → i < (h.act action).1.session.nextId → f i = i + d) :
    (h.act action).1.Renamed f (k.act action).1 ∧
      (k.act action).2 = (h.act action).2.rename f := by
  cases action with
  | run limits source =>
    have window : ∀ i, h.session.nextId ≤ i → i < (h.session.read source).1.nextId →
        f i = i + d := by
      intro i low high
      rw [← nextId_of_run h.session limits source] at high
      exact fresh i low high
    obtain ⟨session, answer⟩ := renamed.session.run increasing discreet later source window limits
    exact ⟨⟨session, renamed.held⟩, answer⟩
  | native name arity function =>
    obtain ⟨session, value⟩ := renamed.session.defineNative name arity function
    refine ⟨⟨session, ?_⟩, congrArg Answer.native value⟩
    change k.held ++ [(k.session.defineNative name arity function).2] =
      (h.held ++ [(h.session.defineNative name arity function).2]).map (·.rename f)
    rw [value, renamed.held, List.map_append]
    rfl
  | define name given =>
    have session := renamed.session.setGlobal name (given.value h.held)
    rw [← renamed.value given] at session
    exact ⟨⟨session, renamed.held⟩, rfl⟩
  | entrust given =>
    have session := renamed.session.entrust (given.value h.held)
    rw [← renamed.value given] at session
    exact ⟨⟨session, renamed.held⟩, rfl⟩
  | get name =>
    have found := renamed.session.getGlobal name
    simp only [Hosted.act, found]
    cases h.session.getGlobal name with
    | error error => exact ⟨renamed, rfl⟩
    | ok a =>
      refine ⟨⟨renamed.session, ?_⟩, rfl⟩
      simp only [Except.map, renamed.held, List.map_append, List.map_cons, List.map_nil]

theorem nextId_of_act (later : k.session.nextId = h.session.nextId + d) (action : Action) :
    (k.act action).1.session.nextId = (h.act action).1.session.nextId + d := by
  cases action with
  | run limits source =>
    change (k.session.run limits source).1.nextId = (h.session.run limits source).1.nextId + d
    rw [nextId_of_run, nextId_of_run]
    exact (read_shift later source).2
  | native | define | entrust => exact later
  | get name =>
    simp only [Hosted.act]
    split <;> split <;> exact later

end Act

/-- The second host has the session of the first one, but has used up `d` numbers more. Whatever the
numbers that are still free get changed into, the sessions hold the same. -/
structure Ahead (f : NodeId → NodeId) (d : Nat) (h k : Hosted) : Prop where
  increasing : StrictMono f
  later : k.session.nextId = h.session.nextId + d
  free : ∀ i, h.session.nextId ≤ i → f i = i + d
  discreet : h.session.store.Discreet
  renamed : ∀ g, StrictMono g → (∀ i < h.session.nextId, g i = f i) → h.Renamed g k

section Ahead

variable {f : NodeId → NodeId} {h k : Hosted} {d : Nat} (ahead : Ahead f d h k)

include ahead

theorem Ahead.act {action : Action} (allowed : action.Discreet) :
    Ahead f d (h.act action).1 (k.act action).1 ∧
      ∀ g, StrictMono g → (∀ i < (h.act action).1.session.nextId, g i = f i) →
        (k.act action).2 = (h.act action).2.rename g := by
  have grown := h.nextId_le_act action
  have both (g : NodeId → NodeId) (increasing : StrictMono g)
      (same : ∀ i < (h.act action).1.session.nextId, g i = f i) :
      (h.act action).1.Renamed g (k.act action).1 ∧
        (k.act action).2 = (h.act action).2.rename g := by
    have old : h.Renamed g k :=
      ahead.renamed g increasing fun i below => same i (Nat.lt_of_lt_of_le below grown)
    apply old.act increasing ahead.discreet ahead.later
    intro i low high
    rw [same i high, ahead.free i low]
  refine ⟨⟨ahead.increasing, nextId_of_act ahead.later action, ?_, ?_, ?_⟩, ?_⟩
  · exact fun i low => ahead.free i (Nat.le_trans grown low)
  · exact Hosted.discreet_act ahead.discreet allowed
  · exact fun g increasing same => (both g increasing same).1
  · exact fun g increasing same => (both g increasing same).2

/-- What only the second host does brings it further ahead, if it is rejected. -/
theorem Ahead.skip {action : Action} (rejected : (k.act action).2.isRejection = true) :
    ∃ g e, (∀ i < h.session.nextId, g i = f i) ∧ Ahead g e h (k.act action).1 := by
  cases action with
  | native | define | entrust => cases rejected
  | get name =>
    simp only [Hosted.act] at rejected
    split at rejected <;> cases rejected
  | run limits source =>
    have read : (k.session.run limits source).1 = (k.session.read source).1 := by
      cases result : k.session.run limits source with
      | mk t outcome =>
        cases outcome with
        | ok r =>
          have ran : (k.act (.run limits source)).2 = .ran (.ok r) := by
            simp only [Hosted.act, result]
          rw [ran] at rejected
          cases rejected
        | error rejection => exact eq_of_rejected result
    obtain ⟨more, grown⟩ := Nat.exists_eq_add_of_le (nextId_of_read k.session source)
    -- numbers given out from now on are moved by all that was used up so far
    let g := fun i => if i < h.session.nextId then f i else i + (d + more)
    have below : ∀ i < h.session.nextId, g i = f i := fun i low => if_pos low
    have above : ∀ i, h.session.nextId ≤ i → g i = i + (d + more) :=
      fun i low => if_neg (Nat.not_lt_of_le low)
    refine ⟨g, d + more, below, ?_, ?_, above, ahead.discreet, ?_⟩
    · intro i j less
      rcases Nat.lt_or_ge j h.session.nextId with low | high
      · rw [below i (Nat.lt_trans less low), below j low]
        exact ahead.increasing less
      · rw [above j high]
        rcases Nat.lt_or_ge i h.session.nextId with low | far
        · have first := ahead.increasing low
          rw [ahead.free h.session.nextId (Nat.le_refl _)] at first
          rw [below i low]
          exact Nat.lt_of_lt_of_le first (Nat.add_le_add high (Nat.le_add_right d more))
        · rw [above i far]
          exact Nat.add_lt_add_right less (d + more)
    · change (k.session.run limits source).1.nextId = _
      rw [read, grown, ahead.later, Nat.add_assoc]
    · intro other increasing same
      have old := ahead.renamed other increasing fun i low => (same i low).trans (below i low)
      change Hosted.Renamed other h { k with session := (k.session.run limits source).1 }
      rw [read, read_eq]
      exact ⟨⟨old.session.file, old.session.store, old.session.scope, old.session.distances⟩,
        old.held⟩

end Ahead

/-- A host that leaves out what is rejected gets the same answers to the rest, but for the
numbers. -/
theorem Ahead.perform {f : NodeId → NodeId} {d : Nat} {h k : Hosted} (ahead : Ahead f d h k)
    {actions : List Action} (allowed : ∀ action ∈ actions, action.Discreet) {gone : Nat → Bool}
    (rejected : ∀ i answer, gone i = true → (k.perform actions).2[i]? = some answer →
      answer.isRejection = true) :
    ∃ g e, (∀ i < h.session.nextId, g i = f i) ∧
      Ahead g e (h.perform (without gone actions)).1 (k.perform actions).1 ∧
      without gone (k.perform actions).2 =
        (h.perform (without gone actions)).2.map (·.rename g) := by
  -- What is left out moves the numbers of what comes later, so only the renaming that is found
  -- last suits all answers; it agrees with the earlier ones on the numbers that they had.
  induction actions generalizing f d h k gone with
  | nil => exact ⟨f, d, fun _ _ => rfl, ahead, rfl⟩
  | cons action rest ih =>
    have first := allowed action List.mem_cons_self
    have others : ∀ other ∈ rest, other.Discreet :=
      fun other member => allowed other (List.mem_cons_of_mem _ member)
    have later : ∀ i answer, gone (i + 1) = true →
        ((k.act action).1.perform rest).2[i]? = some answer → answer.isRejection = true :=
      fun i answer here found => rejected (i + 1) answer here found
    cases here : gone 0 with
    | true =>
      obtain ⟨g, e, below, skipped⟩ := ahead.skip (rejected 0 _ here rfl)
      obtain ⟨g', e', below', last, answers⟩ := ih skipped others later
      have shorter : without gone (action :: rest) = without (fun i => gone (i + 1)) rest :=
        if_pos here
      rw [shorter]
      refine ⟨g', e', fun i low => (below' i low).trans (below i low), last, ?_⟩
      exact (if_pos here).trans answers
    | false =>
      obtain ⟨both, answer⟩ := ahead.act first
      obtain ⟨g', e', below', last, answers⟩ := ih both others later
      have grown := h.nextId_le_act action
      have shorter : without gone (action :: rest) =
          action :: without (fun i => gone (i + 1)) rest := if_neg (by rw [here]; nofun)
      rw [shorter]
      refine ⟨g', e', fun i low => below' i (Nat.lt_of_lt_of_le low grown), last, ?_⟩
      have same := answer g' last.increasing below'
      change without gone ((k.act action).2 :: ((k.act action).1.perform rest).2) =
        ((h.act action).2 :: ((h.act action).1.perform _).2).map (·.rename g')
      rw [List.map_cons, ← same, ← answers]
      exact if_neg (by rw [here]; nofun)

def Answer.Allowed : Answer → Prop
  | ran (.ok ⟨.failed failure, _, _⟩) => failure.Admissible
  | _ => True

theorem rename_of_admissible {f : NodeId → NodeId} {failure : Failure}
    (allowed : (failure.rename f).Admissible) : failure.rename f = failure := by
  cases failure with
  | noDistance id => cases allowed
  | _ => rfl

theorem Answer.shown_rename {f : NodeId → NodeId} {answer : Answer}
    (allowed : (answer.rename f).Allowed) : (answer.rename f).shown = answer.shown := by
  cases answer with
  | ran result =>
    cases result with
    | error rejection => rfl
    | ok r =>
      obtain ⟨outcome, printed, classes⟩ := r
      cases outcome with
      | value v | returned v =>
        simp only [rename, Run.rename, Outcome.rename, shown,
          v.view_mapCode (keepsSignature_rename f)]
        rfl
      | done | unfinished => rfl
      | failed failure =>
        have same := rename_of_admissible allowed
        simp only [rename, Run.rename, Outcome.rename, shown, same]
  | native value => simp only [rename, shown, value.view_mapCode (keepsSignature_rename f)]
  | defined => rfl
  | got result =>
    cases result with
    | error error => rfl
    | ok value =>
      simp only [rename, Except.map, shown, value.view_mapCode (keepsSignature_rename f)]

def Hosted.Honest (h : Hosted) : Prop :=
  ∃ programs held, Reachable programs held h.session ∧ ∀ a ∈ h.held, a ∈ held

theorem Given.mem_value (values : List Value) (given : Given) :
    given.value values ∈ values ∨ ∃ l : Literal, given.value values = l.toValue := by
  cases given with
  | literal l => exact .inr ⟨l, rfl⟩
  | held index =>
    simp only [Given.value]
    cases found : values[index]? with
    | none => exact .inr ⟨.nil, rfl⟩
    | some a => exact .inl (List.mem_of_getElem? found)

theorem Hosted.Honest.act {h : Hosted} (honest : h.Honest) (action : Action)
    (whole : (h.act action).2.isCutOff = false) :
    (h.act action).1.Honest ∧ (h.act action).2.Allowed := by
  obtain ⟨programs, held, reached, given⟩ := honest
  cases action with
  | run limits source =>
    have ended : ∀ r, (h.session.run limits source).2 = .ok r → r.outcome ≠ .unfinished := by
      intro r ran cut
      have answer : (h.act (.run limits source)).2 = .ran (.ok r) := congrArg Answer.ran ran
      rw [answer] at whole
      obtain ⟨outcome, printed, classes⟩ := r
      cases cut
      cases whole
    obtain ⟨programs', reached'⟩ := reachable_run reached limits source ended
    refine ⟨⟨programs', held, reached', given⟩, ?_⟩
    change (Answer.ran (h.session.run limits source).2).Allowed
    cases result : (h.session.run limits source).2 with
    | error rejection => exact True.intro
    | ok r =>
      have come := outcome_of_run (sound_of_reachable reached) (Prod.ext rfl result)
      obtain ⟨outcome, printed, classes⟩ := r
      rcases come with rfl | ⟨failure, rfl, allowed⟩ | rfl
      · exact True.intro
      · exact allowed
      · exact True.intro
  | native name arity function =>
    refine ⟨⟨programs, _, .native reached name arity function, ?_⟩, True.intro⟩
    intro a member
    rcases List.mem_append.mp member with older | new
    · exact List.mem_cons_of_mem _ (given a older)
    · cases List.mem_singleton.mp new
      exact List.mem_cons_self
  | define name value =>
    have known := (value.mem_value h.held).imp_left (given _)
    exact ⟨⟨programs, held, .setGlobal reached name known, given⟩, True.intro⟩
  | entrust value =>
    have known := (value.mem_value h.held).imp_left (given _)
    exact ⟨⟨programs, held, .entrust reached known, given⟩, True.intro⟩
  | get name =>
    cases found : h.session.getGlobal name with
    | error error =>
      have nothing : h.act (.get name) = (h, .got (.error error)) := by
        simp only [Hosted.act, found]
      rw [nothing]
      exact ⟨⟨programs, held, reached, given⟩, True.intro⟩
    | ok a =>
      have got : h.act (.get name) = ({ h with held := h.held ++ [a] }, .got (.ok a)) := by
        simp only [Hosted.act, found]
      have holds : h.session.store.Holds a := .inl ⟨Store.globals, name, found⟩
      rw [got]
      refine ⟨⟨programs, a :: held, .keep reached holds, ?_⟩, True.intro⟩
      intro b member
      rcases List.mem_append.mp member with older | new
      · exact List.mem_cons_of_mem _ (given b older)
      · cases List.mem_singleton.mp new
        exact List.mem_cons_self

theorem Hosted.Honest.perform {h : Hosted} (honest : h.Honest) {actions : List Action}
    (whole : ∀ answer ∈ (h.perform actions).2, answer.isCutOff = false) :
    ∀ answer ∈ (h.perform actions).2, answer.Allowed := by
  induction actions generalizing h with
  | nil =>
    intro answer member
    cases member
  | cons action rest ih =>
    obtain ⟨next, first⟩ := honest.act action (whole _ List.mem_cons_self)
    intro answer member
    rcases List.mem_cons.mp member with rfl | later
    · exact first
    · exact ih next (fun other inside => whole other (List.mem_cons_of_mem _ inside)) answer later

theorem mem_of_without {α : Type} {a : α} {l : List α} (gone : Nat → Bool)
    (member : a ∈ without gone l) : a ∈ l := by
  induction l generalizing gone with
  | nil => cases member
  | cons b rest ih =>
    unfold without at member
    split at member
    · exact List.mem_cons_of_mem b (ih _ member)
    · rcases List.mem_cons.mp member with rfl | later
      · exact List.mem_cons_self
      · exact List.mem_cons_of_mem b (ih _ later)

def globalViews (s : Session) : List (String × View) :=
  s.globals.map fun entry => (entry.1, entry.2.view)

theorem Renamed.globalViews {f : NodeId → NodeId} {s t : Session} (renamed : s.Renamed f t) :
    t.globalViews = s.globalViews := by
  unfold Session.globalViews
  rw [renamed.globals, Table.rename, Table.recode, List.map_map]
  apply List.map_congr_left
  intro entry _
  exact Prod.ext rfl (entry.2.view_mapCode (keepsSignature_rename f))

theorem ahead_new (file : String) : Ahead id 0 (.new file) (.new file) where
  increasing := fun _ _ less => less
  later := rfl
  free := fun _ _ => rfl
  discreet := discreet_empty file
  renamed := fun f _ _ => ⟨renamed_empty f file, rfl⟩

/-- A host that leaves out any texts that are rejected gets the same answers to everything else and
ends with the same session, except that the nodes have other numbers, in the same order. If no run
is cut off, the host sees no difference at all: the same text is printed, the same values are given
and the same errors are reported, and the global names and their values look the same. -/
theorem rejected_invisible (file : String) {actions : List Action}
    (discreet : ∀ action ∈ actions, action.Discreet) {gone : Nat → Bool}
    (rejected : ∀ i answer, gone i = true →
      ((Hosted.new file).perform actions).2[i]? = some answer → answer.isRejection = true) :
    let full := (Hosted.new file).perform actions
    let short := (Hosted.new file).perform (without gone actions)
    (∃ f, StrictMono f ∧ without gone full.2 = short.2.map (·.rename f) ∧
        short.1.Renamed f full.1) ∧
      ((∀ answer ∈ full.2, answer.isCutOff = false) →
        (without gone full.2).map (·.shown) = short.2.map (·.shown)) ∧
      full.1.session.globalViews = short.1.session.globalViews := by
  obtain ⟨f, d, _, ahead, answers⟩ := (ahead_new file).perform discreet rejected
  have renamed := ahead.renamed f ahead.increasing fun _ _ => rfl
  refine ⟨⟨f, ahead.increasing, answers, renamed⟩, ?_, renamed.session.globalViews⟩
  intro whole
  have honest : (Hosted.new file).Honest := ⟨[], [], .empty file, nofun⟩
  have allowed := honest.perform whole
  rw [answers, List.map_map]
  apply List.map_congr_left
  intro answer member
  apply Answer.shown_rename
  apply allowed
  apply mem_of_without gone
  rw [answers]
  exact List.mem_map_of_mem member

/-- Between the definition of a function and its use, one text is rejected by the static pass and
one by the grammar. -/
def visit : List Action := [
  .native "clock" 0 (clockFrom 0),
  .run ⟨100, 9⟩ "fun f(a) { return a; }",
  .run ⟨100, 9⟩ "return f;",
  .get "f",
  .run ⟨100, 9⟩ "f(",
  .run ⟨100, 9⟩ "print f(2);"]

def slips (i : Nat) : Bool := i == 2 || i == 4

theorem discreet_visit : ∀ action ∈ visit, action.Discreet := by
  have clock : (clockFrom 0).Discreet := fun _ _ _ _ => ⟨rfl, True.intro⟩
  intro action member
  simp only [visit, List.mem_cons, List.not_mem_nil, or_false] at member
  rcases member with rfl | rfl | rfl | rfl | rfl | rfl
  · exact clock
  all_goals exact True.intro

/-- The rejected texts use up numbers, and nothing else comes of them. -/
theorem rejected_invisible_visit :
    let full := (Hosted.new "main").perform visit
    let short := (Hosted.new "main").perform (without slips visit)
    (∀ action ∈ visit, action.Discreet) ∧
      (∀ i answer, slips i = true → full.2[i]? = some answer → answer.isRejection = true) ∧
      (∀ answer ∈ full.2, answer.isCutOff = false) ∧
      (∃ f, StrictMono f ∧ without slips full.2 = short.2.map (·.rename f) ∧
        short.1.Renamed f full.1) ∧
      (without slips full.2).map (·.shown) = short.2.map (·.shown) ∧
      short.2.map (fun answer => answer.shown.printed) = ["", "", "", "2\n"] ∧
      short.1.session.nextId < full.1.session.nextId := by
  intro full short
  have places : full.2.map (·.isRejection) = [false, false, true, false, true, false] := by
    decide +kernel
  have rejected : ∀ i answer, slips i = true → full.2[i]? = some answer →
      answer.isRejection = true := by
    intro i answer gone found
    have here := congrArg (·[i]?) places
    simp only [List.getElem?_map, found, Option.map_some] at here
    simp only [slips, Bool.or_eq_true, beq_iff_eq] at gone
    rcases gone with rfl | rfl <;> exact Option.some.inj here
  have whole : ∀ answer ∈ full.2, answer.isCutOff = false := by decide +kernel
  obtain ⟨same, shown, _⟩ := rejected_invisible "main" discreet_visit rejected
  exact ⟨discreet_visit, rejected, whole, same, shown whole, by decide +kernel, by decide +kernel⟩

end LoxMachine.Session
