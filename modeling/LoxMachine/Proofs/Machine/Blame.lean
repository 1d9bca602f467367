import LoxMachine.Proofs.Recode.Step

namespace LoxMachine

/-- The node and the token at which the complaints of the expression itself point. -/
def Expr.blame : Expr → Option (NodeId × Token)
  | .read use => some (use.id, use.name)
  | .this id keyword => some (id, keyword)
  | .super id _ method => some (id, method)
  | .assign id name _ => some (id, name)
  | .unary id operator _ | .binary id _ operator _ => some (id, operator)
  | .call id _ paren _ => some (id, paren)
  | .get id _ name | .set id _ name _ => some (id, name)
  | .literal _ _ | .logical _ _ _ _ | .grouping _ _ => none

/-- Only a class that extends another can be complained about itself. -/
def Stmt.blame : Stmt → Option (NodeId × Token)
  | .classDecl _ _ superclass _ => superclass.map fun use => (use.id, use.name)
  | _ => none

def Control.blame : Control → Option (NodeId × Token)
  | evaluate e => e.blame
  | execute s => s.blame
  | value _ | done | returning _ | failing _ => none

def Frame.blame : Frame → Option Token
  | assign _ name | property name | target name _ => some name
  | operand operator | leftOperand _ operator _ | rightOperand _ _ operator _ => some operator
  | callee _ paren _ | argument _ _ paren _ _ => some paren
  | heritage superclass _ _ => some superclass
  | shortcut _ _ | field _ _ | discard | print | define _ | choose _ _ | test _ _ | again _ _
  | giveBack | sequence _ | leaveBlock _ | leaveCall _ _ | construct _ => none

def Control.isFailing : Control → Bool
  | failing _ => true
  | _ => false

def Control.complains : Control → Bool
  | failing (.complaint _ _) => true
  | _ => false

namespace Machine

/-- The phrase with which the run begins after `j` steps is at work after `n` steps: it is just
begun, or it takes the value of one of its parts and was not over in between. -/
structure Works (c : Setting) (m : Machine) (j n : Nat) : Prop where
  order : j ≤ n
  taking : j < n → (∃ v, (run c n m).control = .value v) ∧
    (run c n m).frames.length = (run c j m).frames.length + 1
  unended : ∀ i, j < i → i ≤ n → (run c j m).frames.length < (run c i m).frames.length

/-- The run fails with a complaint of the phrase that has the node and the token. -/
def Raises (c : Setting) (m : Machine) (id : NodeId) (t : Token) (complaint : Complaint) : Prop :=
  ∃ j n, Works c m j n ∧ (run c j m).control.blame = some (id, t) ∧
    (run c n m).control.isFailing = false ∧
    (run c (n + 1) m).control = .failing (.against t complaint)

variable {c : Setting} {m : Machine}

theorem Works.unique {j j' n : Nat} {id id' : NodeId} {t t' : Token} (one : Works c m j n)
    (two : Works c m j' n) (blamed : (run c j m).control.blame = some (id, t))
    (blamed' : (run c j' m).control.blame = some (id', t')) : j = j' := by
  have never : ∀ {j j' : Nat} {id : NodeId} {t : Token}, Works c m j n → Works c m j' n →
      (run c j' m).control.blame = some (id, t) → ¬ j < j' := by
    intro j j' id t one two blamed sooner
    obtain ⟨⟨v, control⟩, length⟩ := one.taking (Nat.lt_of_lt_of_le sooner two.order)
    have longer := one.unended j' sooner two.order
    rcases Nat.lt_or_eq_of_le two.order with before | rfl
    · have last := (two.taking before).2
      rw [length, Nat.add_right_cancel_iff] at last
      exact absurd last (Nat.ne_of_lt longer)
    · rw [control] at blamed
      cases blamed
  rcases Nat.lt_trichotomy j j' with sooner | same | later
  · exact absurd sooner (never one two blamed')
  · exact same
  · exact absurd later (never two one blamed)

structure Calm (base : List Frame) (m : Machine) : Prop where
  frames : ∃ above, (∀ frame ∈ above, frame.blame = none) ∧ m.frames = above ++ base
  control : m.control.complains = false

/-- What a phrase or a frame that can complain about the token brings about above other frames: it
waits for a value, it complains about the token, or neither. -/
inductive Blames (token : Option Token) (base : List Frame) (m : Machine) : Prop
  | calm (calm : m.Calm base)
  | waits (frame : Frame) (same : frame.blame = token) (frames : m.frames = frame :: base)
      (fine : m.control.complains = false)
  | complains {t : Token} {complaint : Complaint} (points : token = some t)
      (frames : m.frames = base) (control : m.control = .failing (.against t complaint))

variable {token : Option Token} {base : List Frame}

theorem calm_of (frames : m.frames = base) (fine : m.control.complains = false) : m.Calm base :=
  ⟨⟨[], List.forall_mem_nil _, frames⟩, fine⟩

theorem Calm.below {frame : Frame} (calm : m.Calm (frame :: base)) (silent : frame.blame = none) :
    m.Calm base := by
  obtain ⟨above, each, frames⟩ := calm.frames
  refine ⟨⟨above ++ [frame], ?_, ?_⟩, calm.control⟩
  · exact List.forall_mem_append.mpr ⟨each, List.forall_mem_singleton.mpr silent⟩
  · rw [frames, List.append_assoc]
    rfl

theorem blames_same (frames : m.frames = base) (fine : m.control.complains = false) :
    Blames token base m := .calm (calm_of frames fine)

theorem calm_push {frame : Frame} (frames : m.frames = frame :: base) (silent : frame.blame = none)
    (fine : m.control.complains = false) : m.Calm base := (calm_of frames fine).below silent

theorem calm_two {outer inner : Frame} (frames : m.frames = inner :: outer :: base)
    (first : inner.blame = none) (second : outer.blame = none)
    (fine : m.control.complains = false) : m.Calm base :=
  (calm_push frames first fine).below second

theorem calm_giveBound (result : Except ScopeError Value) : (m.giveBound result).Calm m.frames := by
  cases result with
  | ok a => exact calm_of rfl rfl
  | error e => exact calm_of rfl rfl

theorem blames_giveResult {operator : Token} {result : Except Failure Value}
    (points : ∀ f, result = .error f →
      f = .overflow ∨ ∃ complaint, f = .against operator complaint) :
    Blames (some operator) m.frames (m.giveResult result) := by
  cases result with
  | ok a => exact blames_same rfl rfl
  | error f =>
    rcases points f rfl with rfl | ⟨complaint, rfl⟩
    · exact blames_same rfl rfl
    · exact .complains rfl rfl rfl

theorem blames_lookUp (id : NodeId) (name : Token) :
    Blames (some name) m.frames (lookUp c m id name) := by
  unfold lookUp
  split
  · exact .calm (calm_giveBound _)
  · split
    · exact blames_same rfl rfl
    · exact .complains rfl rfl rfl

theorem blames_assignTo (id : NodeId) (name : Token) (a : Value) :
    Blames (some name) m.frames (assignTo c m id name a) := by
  unfold assignTo
  split
  · split <;> exact blames_same rfl rfl
  · split
    · exact blames_same rfl rfl
    · exact .complains rfl rfl rfl

theorem blames_lookUpSuper (id : NodeId) (method : Token) :
    Blames (some method) m.frames (lookUpSuper c m id method) := by
  unfold lookUpSuper
  split
  · exact blames_same rfl rfl
  · split
    · exact blames_same rfl rfl
    · split
      · exact blames_same rfl rfl
      · split
        · split
          · exact blames_same rfl rfl
          · exact .complains rfl rfl rfl
        · exact blames_same rfl rfl

theorem calm_enter (f : Closure) (arguments : List Value) :
    (enter c m f arguments).Calm m.frames := by
  unfold enter
  split
  · exact calm_of rfl rfl
  · exact calm_two rfl rfl rfl rfl

theorem calm_instantiate (k : Class) (arguments : List Value) :
    (instantiate c m k arguments).Calm m.frames := by
  unfold instantiate
  cases k.initializer with
  | none => exact calm_of rfl rfl
  | some method =>
    let made := m.store.instantiate k
    let bound := made.1.bind method (.object made.2)
    have entered := calm_enter (c := c)
      (m := { m with store := bound.1, frames := .construct made.2 :: m.frames }) bound.2 arguments
    exact entered.below rfl

theorem calm_callHost (f : Native) (arguments : List Value) :
    (m.callHost f arguments).Calm m.frames := by
  unfold callHost
  dsimp only
  split <;> exact calm_of rfl rfl

theorem blames_call (callee : Expr) (paren : Token) (a : Value) (arguments : List Value) :
    Blames (some paren) m.frames (call c m callee paren a arguments) := by
  unfold call
  split
  · exact .complains rfl rfl rfl
  · split
    · exact .complains rfl rfl rfl
    · split
      · exact .calm (calm_enter _ _)
      · exact .calm (calm_callHost _ _)
      · exact .calm (calm_instantiate _ _)

theorem blames_supply (callee : Expr) (paren : Token) (a : Value) (given : List Value)
    (arguments : List Expr) :
    Blames (some paren) m.frames (supply c m a callee paren given arguments) := by
  cases arguments with
  | nil => exact blames_call _ _ _ _
  | cons e rest =>
    exact .waits (.argument a callee paren given rest) rfl rfl rfl

theorem blames_readProperty (name : Token) (a : Value) :
    Blames (some name) m.frames (m.readProperty name a) := by
  cases a with
  | object o =>
    dsimp only [readProperty]
    split
    · exact blames_same rfl rfl
    · split
      · exact blames_same rfl rfl
      · exact .complains rfl rfl rfl
  | _ => exact .complains rfl rfl rfl

theorem calm_defineClass (name : Token) (superclass : Option Class)
    (methods : List FunctionDecl) : (m.defineClass name superclass methods).Calm m.frames := by
  cases superclass <;> exact calm_of rfl rfl

theorem calm_leaveCall (scope : ScopeId) (initialized : Option ScopeId) (a : Value) :
    (m.leaveCall scope initialized a).Calm m.frames := by
  cases initialized with
  | none => exact calm_of rfl rfl
  | some own =>
    exact calm_giveBound (m := { m with scope, depth := m.depth - 1 }) _

theorem points_numberResult {result : Except Number.RangeError Number} {f : Failure}
    (failed : numberResult result = .error f) : f = .overflow := by
  cases result with
  | ok n => cases failed
  | error e =>
    cases e
    cases failed
    rfl

theorem points_applyPrefix {operator : Token} {a : Value} {f : Failure}
    (failed : applyPrefix operator a = .error f) :
    f = .overflow ∨ ∃ complaint, f = .against operator complaint := by
  unfold applyPrefix at failed
  split at failed
  · cases failed
  · split at failed
    · exact .inl (points_numberResult failed)
    · cases failed
      exact .inr ⟨_, rfl⟩

theorem points_applyNumbers {form : Unit → String} {operator : Token} {a b : Number} {f : Failure}
    (failed : applyNumbers form operator a b = .error f) :
    f = .overflow ∨ ∃ complaint, f = .against operator complaint := by
  unfold applyNumbers at failed
  split at failed
  case h_4 =>
    split at failed
    · cases failed
      exact .inr ⟨_, rfl⟩
    · exact .inl (points_numberResult failed)
  case h_9 =>
    cases failed
    exact .inr ⟨_, rfl⟩
  all_goals
    first
    | exact .inl (points_numberResult failed)
    | cases failed

theorem points_applyBinary {form : Unit → String} {operator : Token} {a b : Value} {f : Failure}
    (failed : applyBinary form operator a b = .error f) :
    f = .overflow ∨ ∃ complaint, f = .against operator complaint := by
  unfold applyBinary at failed
  split at failed
  · cases failed
  · cases failed
  · cases failed
  · exact points_applyNumbers failed
  · cases failed
    exact .inr ⟨_, rfl⟩

theorem blames_evaluate (e : Expr) :
    Blames (e.blame.map Prod.snd) m.frames (evaluate c m e) := by
  cases e with
  | literal id value => exact blames_same rfl rfl
  | read use => exact blames_lookUp use.id use.name
  | this id keyword => exact blames_lookUp id keyword
  | super id keyword method => exact blames_lookUpSuper id method
  | grouping id inner => exact blames_same rfl rfl
  | logical id left operator right => exact .calm (calm_push rfl rfl rfl)
  | assign id name value => exact .waits (.assign id name) rfl rfl rfl
  | unary id operator right => exact .waits (.operand operator) rfl rfl rfl
  | binary id left operator right =>
    exact .waits (.leftOperand left operator right) rfl rfl rfl
  | call id callee paren arguments =>
    exact .waits (.callee callee paren arguments) rfl rfl rfl
  | get id object name => exact .waits (.property name) rfl rfl rfl
  | set id object name value => exact .waits (.target name value) rfl rfl rfl

theorem blames_execute (s : Stmt) : Blames (s.blame.map Prod.snd) m.frames (execute m s) := by
  cases s with
  | expression id e | print id e => exact .calm (calm_push rfl rfl rfl)
  | var id name initializer =>
    cases initializer with
    | none => exact blames_same rfl rfl
    | some e => exact .calm (calm_push rfl rfl rfl)
  | block id body => exact .calm (calm_two rfl rfl rfl rfl)
  | branch id condition yes no => exact .calm (calm_push rfl rfl rfl)
  | loop id condition body => exact .calm (calm_push rfl rfl rfl)
  | function decl => exact blames_same rfl rfl
  | returns id keyword value =>
    cases value with
    | none => exact blames_same rfl rfl
    | some e => exact .calm (calm_push rfl rfl rfl)
  | classDecl id name superclass methods =>
    cases superclass with
    | none => exact .calm (calm_defineClass name none methods)
    | some use => exact .waits (.heritage use.name name methods) rfl rfl rfl

theorem blames_resume (fine : m.control.complains = false) (a : Value) (frame : Frame) :
    Blames frame.blame m.frames (resume c m a frame) := by
  cases frame with
  | assign id name => exact blames_assignTo id name a
  | operand operator => exact blames_giveResult fun _ => points_applyPrefix
  | leftOperand left operator right =>
    exact .waits (.rightOperand a left operator right) rfl rfl rfl
  | rightOperand b left operator right => exact blames_giveResult fun _ => points_applyBinary
  | shortcut operator right =>
    dsimp only [resume]
    split <;> exact blames_same rfl rfl
  | callee callee paren arguments => exact blames_supply callee paren a [] arguments
  | argument b callee paren given rest => exact blames_supply callee paren b (a :: given) rest
  | property name => exact blames_readProperty name a
  | target name value =>
    cases a with
    | object o => exact .calm (calm_push rfl rfl rfl)
    | _ => exact .complains rfl rfl rfl
  | choose yes no =>
    dsimp only [resume]
    split
    · exact blames_same rfl rfl
    · cases no <;> exact blames_same rfl rfl
  | test condition body =>
    dsimp only [resume]
    split
    · exact .calm (calm_push rfl rfl rfl)
    · exact blames_same rfl rfl
  | heritage superclass name methods =>
    cases a with
    | cls base => exact .calm (calm_defineClass name (some base) methods)
    | _ => exact .complains rfl rfl rfl
  | field | discard | print | define | giveBack | construct => exact blames_same rfl rfl
  | again | sequence | leaveBlock | leaveCall => exact blames_same rfl fine

theorem calm_proceed (fine : m.control.complains = false) (frame : Frame) :
    (proceed m frame).Calm m.frames := by
  cases frame with
  | again condition body => exact calm_push rfl rfl rfl
  | sequence body =>
    cases body with
    | nil => exact calm_of rfl fine
    | cons s rest => exact calm_push rfl rfl rfl
  | leaveCall scope initialized => exact calm_leaveCall scope initialized .nil
  | _ => exact calm_of rfl fine

theorem calm_passReturn (fine : m.control.complains = false) (a : Value) (frame : Frame) :
    (passReturn m a frame).Calm m.frames := by
  cases frame with
  | leaveCall scope initialized => exact calm_leaveCall scope initialized a
  | _ => exact calm_of rfl fine

/-- A step begins a phrase, hands a value to the frame that waits for it, or takes a frame off and
complains about nothing. -/
theorem blames_step (fine : m.control.isFailing = false) (going : m.isOver = false) :
    Blames (m.control.blame.map Prod.snd) m.frames (step c m) ∨
      (∃ a frame rest, m.control = .value a ∧ m.frames = frame :: rest ∧
        Blames frame.blame rest (step c m)) ∨
      ∃ frame rest, m.frames = frame :: rest ∧ (step c m).Calm rest := by
  obtain ⟨control, frames, scope, depth, store, printed, classes⟩ := m
  cases control with
  | evaluate e => exact .inl (blames_evaluate e)
  | execute s => exact .inl (blames_execute s)
  | value a =>
    cases frames with
    | nil => cases going
    | cons frame rest =>
      have taken := blames_resume (c := c)
        (m := ⟨.value a, rest, scope, depth, store, printed, classes⟩) rfl a frame
      exact .inr (.inl ⟨a, frame, rest, rfl, rfl, taken⟩)
  | done =>
    cases frames with
    | nil => cases going
    | cons frame rest =>
      have taken := calm_proceed
        (m := ⟨.done, rest, scope, depth, store, printed, classes⟩) rfl frame
      exact .inr (.inr ⟨frame, rest, rfl, taken⟩)
  | returning a =>
    cases frames with
    | nil => cases going
    | cons frame rest =>
      have taken := calm_passReturn
        (m := ⟨.returning a, rest, scope, depth, store, printed, classes⟩) rfl a frame
      exact .inr (.inr ⟨frame, rest, rfl, taken⟩)
  | failing f => cases fine

/-- Every frame that can complain was pushed by a phrase that can, and what waits below it has not
gone on since. -/
def Sourced (c : Setting) (m : Machine) (n : Nat) : Prop :=
  ∀ above frame rest t, (run c n m).frames = above ++ frame :: rest → frame.blame = some t →
    ∃ j id, j < n ∧ (run c j m).control.blame = some (id, t) ∧
      (run c j m).frames.length = rest.length ∧
      ∀ i, j < i → i ≤ n → rest.length < (run c i m).frames.length

theorem Blames.frame {above rest : List Frame} {frame : Frame} {t : Token}
    (blames : Blames token base m) (frames : m.frames = above ++ frame :: rest)
    (blamed : frame.blame = some t) :
    (∃ older, base = older ++ frame :: rest) ∨ token = some t ∧ rest = base := by
  cases blames with
  | calm calm =>
    obtain ⟨new, silent, pushed⟩ := calm.frames
    rcases List.append_eq_append_iff.mp (frames.symm.trans pushed) with
      ⟨inner, rfl, split⟩ | ⟨older, rfl, split⟩
    · cases inner with
      | nil => exact .inl ⟨[], split.symm⟩
      | cons first inner =>
        obtain ⟨rfl, -⟩ := List.cons.inj split
        have none := silent frame (List.mem_append_right _ List.mem_cons_self)
        cases blamed.symm.trans none
    · exact .inl ⟨older, split⟩
  | waits pushed same now =>
    cases above with
    | nil =>
      obtain ⟨rfl, rfl⟩ := List.cons.inj (frames.symm.trans now)
      exact .inr ⟨same.symm.trans blamed, rfl⟩
    | cons first older => exact .inl ⟨older, (List.cons.inj (frames.symm.trans now)).2.symm⟩
  | complains points now control => exact .inl ⟨above, now.symm.trans frames⟩

theorem sourced_step {n : Nat} (sourced : Sourced c m n)
    (fine : (run c n m).control.isFailing = false) : Sourced c m (n + 1) := by
  intro above frame rest t frames blamed
  have longer : rest.length < (run c (n + 1) m).frames.length := by
    rw [frames, List.length_append, List.length_cons]
    exact Nat.lt_add_left _ (Nat.lt_succ_self _)
  -- what is sourced before the step is sourced after it
  have still : ∀ older frame, (run c n m).frames = older ++ frame :: rest → frame.blame = some t →
      ∃ j id, j < n + 1 ∧ (run c j m).control.blame = some (id, t) ∧
        (run c j m).frames.length = rest.length ∧
        ∀ i, j < i → i ≤ n + 1 → rest.length < (run c i m).frames.length := by
    intro older frame before blamed
    obtain ⟨j, id, sooner, begun, length, since⟩ := sourced older frame rest t before blamed
    refine ⟨j, id, Nat.lt_succ_of_lt sooner, begun, length, fun i after until_now => ?_⟩
    rcases Nat.lt_or_eq_of_le until_now with earlier | rfl
    · exact since i after (Nat.le_of_lt_succ earlier)
    · exact longer
  rw [run_succ] at frames
  cases halted : (run c n m).isOver with
  | true =>
    rw [(step_of_over c halted).1] at frames
    exact still above frame frames blamed
  | false =>
    rcases blames_step (c := c) fine halted with
      phrase | ⟨a, taken, base, _, waiting, handed⟩ | ⟨taken, base, waiting, calm⟩
    · rcases phrase.frame frames blamed with ⟨older, before⟩ | ⟨points, rfl⟩
      · exact still older frame before blamed
      · obtain ⟨⟨id, _⟩, begun, rfl⟩ := Option.map_eq_some_iff.mp points
        refine ⟨n, id, Nat.lt_succ_self n, begun, rfl, fun i after until_now => ?_⟩
        cases Nat.le_antisymm until_now after
        exact longer
    · rcases handed.frame frames blamed with ⟨older, before⟩ | ⟨points, rfl⟩
      · exact still (taken :: older) frame (waiting.trans (congrArg _ before)) blamed
      · exact still [] taken waiting points
    · have silent : Blames none base (step c (run c n m)) := .calm calm
      rcases silent.frame frames blamed with ⟨older, before⟩ | ⟨absent, _⟩
      · exact still (taken :: older) frame (waiting.trans (congrArg _ before)) blamed
      · cases absent

theorem sourced_run {n : Nat} (silent : ∀ frame ∈ m.frames, frame.blame = none)
    (fine : ∀ i < n, (run c i m).control.isFailing = false) : Sourced c m n := by
  induction n with
  | zero =>
    intro above frame rest t frames blamed
    have frames : m.frames = above ++ frame :: rest := frames
    have member : frame ∈ m.frames := by
      rw [frames]
      exact List.mem_append_right _ List.mem_cons_self
    cases blamed.symm.trans (silent frame member)
  | succ n ih =>
    exact sourced_step (ih fun i early => fine i (Nat.lt_succ_of_lt early)) (fine n (Nat.lt_succ_self n))

theorem control_of_failing {f : Failure} (failed : m.control = .failing f) :
    (step c m).control = .failing f := by
  obtain ⟨control, frames, scope, depth, store, printed, classes⟩ := m
  cases failed
  cases frames with
  | nil => rfl
  | cons frame rest => cases frame <;> rfl

theorem failing_later {i n : Nat} {f : Failure} (order : i ≤ n)
    (failed : (run c i m).control = .failing f) : (run c n m).control = .failing f := by
  induction order with
  | refl => exact failed
  | step _ ih =>
    rw [Nat.succ_eq_add_one, run_succ]
    exact control_of_failing ih

theorem exists_failing {control : Control} (failing : control.isFailing = true) :
    ∃ f, control = .failing f := by
  cases control with
  | failing f => exact ⟨f, rfl⟩
  | _ => cases failing

theorem exists_first_failing {n : Nat} {f : Failure} (fine : m.control.isFailing = false)
    (failed : (run c n m).control = .failing f) :
    ∃ k < n, (∀ i ≤ k, (run c i m).control.isFailing = false) ∧
      (run c (k + 1) m).control = .failing f := by
  induction n with
  | zero =>
    have failed : m.control = .failing f := failed
    rw [failed] at fine
    cases fine
  | succ n ih =>
    cases before : (run c n m).control.isFailing with
    | true =>
      obtain ⟨g, earlier⟩ := exists_failing before
      cases (failing_later (Nat.le_succ n) earlier).symm.trans failed
      obtain ⟨k, sooner, none, first⟩ := ih earlier
      exact ⟨k, Nat.lt_succ_of_lt sooner, none, first⟩
    | false =>
      refine ⟨n, Nat.lt_succ_self n, fun i early => ?_, failed⟩
      cases earlier : (run c i m).control.isFailing with
      | false => rfl
      | true =>
        obtain ⟨g, known⟩ := exists_failing earlier
        rw [failing_later early known] at before
        cases before

/-- A run that ends with a complaint has a phrase that raises it. -/
theorem exists_raises {n : Nat} {complaint : Complaint} {line : Nat}
    (silent : ∀ frame ∈ m.frames, frame.blame = none) (fine : m.control.isFailing = false)
    (failed : (run c n m).control = .failing (.complaint complaint line)) :
    ∃ id t, line = t.line ∧ Raises c m id t complaint := by
  obtain ⟨k, _, unfailed, first⟩ := exists_first_failing fine failed
  have sourced : Sourced c m k := sourced_run silent fun i early => unfailed i (Nat.le_of_lt early)
  have step_fails : (step c (run c k m)).control = .failing (.complaint complaint line) :=
    (congrArg Machine.control (run_succ c k m)).symm.trans first
  have loud : ∀ {token base}, Blames token base (step c (run c k m)) →
      ∃ t, token = some t ∧ line = t.line := by
    intro token base blames
    cases blames with
    | calm calm =>
      have silent := calm.control
      rw [step_fails] at silent
      cases silent
    | waits _ _ _ fine =>
      rw [step_fails] at fine
      cases fine
    | complains points _ control =>
      cases step_fails.symm.trans control
      exact ⟨_, points, rfl⟩
  cases halted : (run c k m).isOver with
  | true =>
    rw [(step_of_over c halted).1] at step_fails
    have fine := unfailed k (Nat.le_refl k)
    rw [step_fails] at fine
    cases fine
  | false =>
    rcases blames_step (c := c) (unfailed k (Nat.le_refl k)) halted with
      phrase | ⟨a, frame, rest, control, frames, handed⟩ | ⟨_, base, _, calm⟩
    · obtain ⟨t, points, rfl⟩ := loud phrase
      obtain ⟨⟨id, _⟩, begun, rfl⟩ := Option.map_eq_some_iff.mp points
      refine ⟨id, _, rfl, k, k, ⟨Nat.le_refl k, ?_, ?_⟩, begun, unfailed k (Nat.le_refl k), first⟩
      · exact fun sooner => absurd sooner (Nat.lt_irrefl k)
      · exact fun i after early => absurd (Nat.lt_of_lt_of_le after early) (Nat.lt_irrefl k)
    · obtain ⟨t, points, rfl⟩ := loud handed
      obtain ⟨j, id, sooner, begun, length, since⟩ := sourced [] frame rest t frames points
      refine ⟨id, t, rfl, j, k, ⟨Nat.le_of_lt sooner, fun _ => ⟨⟨a, control⟩, ?_⟩, ?_⟩, begun,
        unfailed k (Nat.le_refl k), first⟩
      · rw [frames, length, List.length_cons]
      · rw [length]
        exact since
    · have absent : Blames none base (step c (run c k m)) := .calm calm
      obtain ⟨_, points, _⟩ := loud absent
      cases points

theorem failing_once {n n' : Nat} {f f' : Failure} (fine : (run c n m).control.isFailing = false)
    (failed : (run c (n + 1) m).control = .failing f)
    (fine' : (run c n' m).control.isFailing = false)
    (failed' : (run c (n' + 1) m).control = .failing f') : n = n' := by
  have never : ∀ {n n' : Nat} {f : Failure}, (run c (n + 1) m).control = .failing f →
      (run c n' m).control.isFailing = false → ¬ n < n' := by
    intro n n' f failed fine sooner
    rw [failing_later sooner failed] at fine
    cases fine
  exact Nat.le_antisymm (Nat.le_of_not_lt (never failed' fine))
    (Nat.le_of_not_lt (never failed fine'))

theorem Raises.unique {id id' : NodeId} {t t' : Token} {complaint complaint' : Complaint}
    (one : Raises c m id t complaint) (two : Raises c m id' t' complaint') : id = id' ∧ t = t' := by
  obtain ⟨j, n, works, begun, fine, failed⟩ := one
  obtain ⟨j', n', works', begun', fine', failed'⟩ := two
  obtain rfl := failing_once fine failed fine' failed'
  obtain rfl := works.unique works' begun begun'
  cases begun.symm.trans begun'
  exact ⟨rfl, rfl⟩

end Machine

end LoxMachine
