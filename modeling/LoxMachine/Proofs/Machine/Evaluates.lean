import LoxMachine.Proofs.Machine.Quiet
import LoxMachine.Proofs.Machine.Returns

namespace LoxMachine

def Frame.isPart : Frame → Bool
  | callee _ _ _ | argument _ _ _ _ _ => true
  | _ => false

namespace Machine

variable {c : Setting} {m k last base : Machine}

/-- By itself the expression comes to its end in the last state, with the value. -/
structure Evaluates (c : Setting) (m : Machine) (e : Expr) (a : Value) (last : Machine) : Prop where
  run : ∃ n, run c n { m with control := .evaluate e, frames := [] } = last
  control : last.control = .value a
  frames : last.frames = []

/-- The expressions are evaluated one after the other, each in the state that the one before it
leaves. -/
inductive EvaluatesAll (c : Setting) : Machine → List Expr → List Value → Machine → Prop
  | nil (m : Machine) : EvaluatesAll c m [] [] m
  | cons {m next last e a rest others} (first : Evaluates c m e a next)
      (further : EvaluatesAll c next rest others last) :
      EvaluatesAll c m (e :: rest) (a :: others) last

theorem EvaluatesAll.concat {es : List Expr} {as : List Value} {next : Machine} {e : Expr} {a : Value}
    (all : EvaluatesAll c m es as next) (further : Evaluates c next e a last) :
    EvaluatesAll c m (es ++ [e]) (as ++ [a]) last := by
  induction all with
  | nil => exact .cons further (.nil _)
  | cons first _ ih => exact .cons first (ih further)

/-- By the next step a call goes on with its arguments, in the base state: these were given, the
last one first, and these expressions are left. -/
inductive Supplies (m : Machine) :
    Machine → Value → Expr → Token → List Value → List Expr → Prop
  | first {v callee paren rest waiting} (control : m.control = .value v)
      (frames : m.frames = .callee callee paren rest :: waiting) :
      Supplies m { m with frames := waiting } v callee paren [] rest
  | next {v a callee paren given rest waiting} (control : m.control = .value a)
      (frames : m.frames = .argument v callee paren given rest :: waiting) :
      Supplies m { m with frames := waiting } v callee paren (a :: given) rest

theorem step_of_supplies {v : Value} {callee : Expr} {paren : Token} {given : List Value}
    {rest : List Expr} (supplies : m.Supplies base v callee paren given rest) :
    step c m = supply c base v callee paren given rest := by
  cases supplies with
  | first control frames | next control frames => simp only [step, control, frames, resume]

theorem going_of_supplies {v : Value} {callee : Expr} {paren : Token} {given : List Value}
    {rest : List Expr} (supplies : m.Supplies base v callee paren given rest) :
    m.isOver = false := by
  cases supplies with
  | first control frames | next control frames => simp [isOver, control, frames]

theorem run_of_going (going : m.isOver = false) (n : Nat) : run c (n + 1) m = run c n (step c m) := by
  rw [run, going, if_neg Bool.false_ne_true]

theorem run_evaluates {e : Expr} {a : Value} (evaluates : Evaluates c k e a last)
    (waiting : List Frame) :
    ∃ n, run c n { k with control := .evaluate e, frames := waiting } = last.above waiting := by
  obtain ⟨n, same⟩ := evaluates.run
  obtain ⟨j, _, above⟩ := run_above c { k with control := .evaluate e, frames := [] } waiting n
  exact ⟨j, above.trans (congrArg (·.above waiting) same)⟩

theorem supplies_of_evaluatesAll {rest : List Expr} {others : List Value} (frames : k.frames = [])
    (all : EvaluatesAll c k rest others last) {v : Value} {callee : Expr} {paren : Token}
    {given : List Value} {waiting : List Frame}
    (supplies : m.Supplies (k.above waiting) v callee paren given rest) :
    ∃ n, (run c n m).Supplies (last.above waiting) v callee paren (others.reverse ++ given) [] := by
  -- each value that is given moves from the others to the given ones
  induction all generalizing m given with
  | nil => exact ⟨0, supplies⟩
  | @cons k next last e a rest others first further ih =>
    let frame := Frame.argument v callee paren given rest
    have begun : step c m = { k with control := .evaluate e, frames := frame :: waiting } := by
      rw [step_of_supplies supplies, supply, evaluating, above, frames, List.nil_append]
    -- the frame waits until the value of the expression is given
    obtain ⟨n, same⟩ := run_evaluates first (frame :: waiting)
    have supplied : (next.above (frame :: waiting)).Supplies (next.above waiting) v callee paren
        (a :: given) rest := by
      have shape : next.above waiting = { next.above (frame :: waiting) with frames := waiting } := by
        rw [above, above, first.frames, List.nil_append]
      rw [shape]
      exact .next first.control (by rw [above, first.frames]; rfl)
    obtain ⟨j, finished⟩ := ih first.frames supplied
    refine ⟨(n + 1) + j, ?_⟩
    rw [run_add, run_of_going (going_of_supplies supplies), begun, same, List.reverse_cons,
      List.append_assoc]
    exact finished

/-- A call expression whose callee and arguments can be evaluated comes to the call with their
values. -/
theorem supplies_of_call {id : NodeId} {callee : Expr} {paren : Token} {es : List Expr}
    (control : m.control = .evaluate (.call id callee paren es)) {v : Value} {as : List Value}
    (called : Evaluates c m callee v k) (all : EvaluatesAll c k es as last) :
    ∃ n, (run c n m).Supplies (last.above m.frames) v callee paren as.reverse [] := by
  have going : m.isOver = false := by simp only [isOver, control]
  let frame := Frame.callee callee paren es
  have begun : step c m = { m with control := .evaluate callee, frames := frame :: m.frames } := by
    simp only [step, control]
    rfl
  obtain ⟨n, same⟩ := run_evaluates called (frame :: m.frames)
  have supplied : (k.above (frame :: m.frames)).Supplies (k.above m.frames) v callee paren [] es := by
    have shape : k.above m.frames = { k.above (frame :: m.frames) with frames := m.frames } := by
      rw [above, above, called.frames, List.nil_append]
    rw [shape]
    exact .first called.control (by rw [above, called.frames]; rfl)
  obtain ⟨j, finished⟩ := supplies_of_evaluatesAll called.frames all supplied
  refine ⟨(n + 1) + j, ?_⟩
  rw [run_add, run_of_going going, begun, same]
  rwa [List.append_nil] at finished

def Covers (m n : Machine) : Prop :=
  ∃ pushed, n.frames = pushed ++ m.frames ∧ ∀ frame ∈ pushed, frame.isPart = false

structure Plain (m n : Machine) : Prop where
  covers : m.Covers n
  depth : n.depth ≤ m.depth
  host : n.store.host = m.store.host

theorem Covers.same {n : Machine} (frames : n.frames = m.frames) : m.Covers n :=
  ⟨[], frames, List.forall_mem_nil _⟩

theorem Plain.still {n : Machine} (frames : n.frames = m.frames) (depth : n.depth = m.depth)
    (host : n.store.host = m.store.host) : m.Plain n :=
  ⟨.same frames, Nat.le_of_eq depth, host⟩

theorem Plain.refl (m : Machine) : m.Plain m := .still rfl rfl rfl

theorem plain_evaluating (m : Machine) (e : Expr) {frame : Frame} (other : frame.isPart = false) :
    m.Plain (m.evaluating e frame) :=
  ⟨⟨[frame], rfl, List.forall_mem_singleton.mpr other⟩, Nat.le_refl _, rfl⟩

theorem Quiet.plain {n : Machine} (quiet : m.Quiet n) : m.Plain n :=
  .still quiet.frames quiet.depth quiet.host

theorem plain_leaveCall (m : Machine) (scope : ScopeId) (initialized : Option ScopeId) (a : Value) :
    m.Plain (m.leaveCall scope initialized a) := by
  have quiet := quiet_leaveCall m scope initialized a
  exact ⟨.same quiet.frames, Nat.le_trans (Nat.le_of_eq quiet.depth) (Nat.sub_le _ _), quiet.host⟩

theorem plain_evaluate (c : Setting) (m : Machine) {e : Expr}
    (other : ∀ id callee paren es, e ≠ .call id callee paren es) : m.Plain (evaluate c m e) := by
  cases e with
  | call id callee paren es => exact absurd rfl (other id callee paren es)
  | literal _ value => exact .still rfl rfl rfl
  | grouping _ inner => exact .still rfl rfl rfl
  | read use => exact (quiet_lookUp c m _ _).plain
  | this id keyword => exact (quiet_lookUp c m _ _).plain
  | super id keyword method => exact (quiet_lookUpSuper c m _ _).plain
  | assign _ _ _ | unary _ _ _ | binary _ _ _ _ | logical _ _ _ _ | get _ _ _ | set _ _ _ _ =>
    exact plain_evaluating m _ rfl

theorem plain_execute (m : Machine) (s : Stmt) : m.Plain (execute m s) := by
  cases s with
  | expression _ e | print _ e | branch _ e _ _ | loop _ e _ => exact plain_evaluating m e rfl
  | var _ name initializer =>
    cases initializer with
    | none => exact .still rfl rfl rfl
    | some e => exact plain_evaluating m e rfl
  | block _ body =>
    exact ⟨⟨[.sequence body, .leaveBlock m.scope], rfl, by simp [Frame.isPart]⟩, Nat.le_refl _, rfl⟩
  | function decl => exact .still rfl rfl rfl
  | returns _ _ value =>
    cases value with
    | none => exact .still rfl rfl rfl
    | some e => exact plain_evaluating m e rfl
  | classDecl _ name superclass methods =>
    cases superclass with
    | none => exact (quiet_defineClass m name none methods).plain
    | some base => exact plain_evaluating m _ rfl

theorem plain_resume (c : Setting) (m : Machine) (a : Value) {frame : Frame}
    (other : frame.isPart = false) : m.Plain (resume c m a frame) := by
  cases frame with
  | callee _ _ _ | argument _ _ _ _ _ => cases other
  | assign id name => exact (quiet_assignTo c m id name a).plain
  | operand _ | rightOperand _ _ _ _ => exact (quiet_giveResult m _).plain
  | leftOperand _ _ _ => exact plain_evaluating m _ rfl
  | shortcut operator right =>
    rw [resume]
    split <;> exact .still rfl rfl rfl
  | property name => exact (quiet_readProperty m name a).plain
  | target name value =>
    cases a with
    | object o => exact plain_evaluating m value rfl
    | _ => exact .still rfl rfl rfl
  | test condition body =>
    rw [resume]
    split
    · exact ⟨⟨[.again condition body], rfl, List.forall_mem_singleton.mpr rfl⟩, Nat.le_refl _, rfl⟩
    · exact .still rfl rfl rfl
  | choose yes no =>
    cases no with
    | none | some s =>
      rw [resume]
      split <;> exact .still rfl rfl rfl
  | heritage superclass name methods =>
    cases a with
    | cls base => exact (quiet_defineClass m name (some base) methods).plain
    | _ => exact .still rfl rfl rfl
  | field _ _ | discard | print | define _ | giveBack | construct _ | again _ _ | sequence _
  | leaveBlock _ | leaveCall _ _ => exact .still rfl rfl rfl

theorem plain_proceed (m : Machine) (frame : Frame) : m.Plain (proceed m frame) := by
  cases frame with
  | again _ _ => exact plain_evaluating m _ rfl
  | sequence statements =>
    cases statements with
    | nil => exact .refl m
    | cons s rest =>
      exact ⟨⟨[.sequence rest], rfl, List.forall_mem_singleton.mpr rfl⟩, Nat.le_refl _, rfl⟩
  | leaveCall scope initialized => exact plain_leaveCall m _ _ _
  | _ => exact .still rfl rfl rfl

theorem plain_passReturn (m : Machine) (a : Value) (frame : Frame) :
    m.Plain (passReturn m a frame) := by
  cases frame with
  | leaveCall scope initialized => exact plain_leaveCall m _ _ _
  | _ => exact .still rfl rfl rfl

theorem plain_passFailure (m : Machine) (frame : Frame) : m.Plain (passFailure m frame) := by
  cases frame with
  | leaveCall scope initialized => exact ⟨.same rfl, Nat.sub_le _ _, rfl⟩
  | _ => exact .still rfl rfl rfl

theorem covers_enter (c : Setting) (m : Machine) (f : Closure) (arguments : List Value) :
    m.Covers (enter c m f arguments) := by
  unfold enter
  split
  · exact .same rfl
  · exact ⟨[_, _], rfl, by simp [Frame.isPart]⟩

theorem covers_instantiate (c : Setting) (m : Machine) (k : Class) (arguments : List Value) :
    m.Covers (instantiate c m k arguments) := by
  unfold instantiate
  cases k.initializer with
  | none => exact .same rfl
  | some method =>
    let made := m.store.instantiate k
    let bound := made.1.bind method (.object made.2)
    obtain ⟨pushed, frames, others⟩ := covers_enter c
      { m with store := bound.1, frames := .construct made.2 :: m.frames } bound.2 arguments
    refine ⟨pushed ++ [.construct made.2], ?_, ?_⟩
    · rw [List.append_assoc]
      exact frames
    · intro frame member
      rcases List.mem_append.mp member with before | here
      · exact others frame before
      · rw [List.mem_singleton.mp here]
        rfl

theorem frames_callHost (m : Machine) (f : Native) (arguments : List Value) :
    (m.callHost f arguments).frames = m.frames ∧ (m.callHost f arguments).depth = m.depth := by
  unfold callHost
  dsimp only
  split <;> exact ⟨rfl, rfl⟩

theorem covers_invoke (c : Setting) (m : Machine) (target : Callable) (arguments : List Value) :
    m.Covers (invoke c m target arguments) := by
  cases target with
  | closure f => exact covers_enter c m f arguments
  | native f => exact .same (frames_callHost m f arguments).1
  | cls k => exact covers_instantiate c m k arguments

theorem value_of_callable {v : Value} {target : Callable} (callable : v.callable? = some target) :
    v = target.value := by
  cases v with
  | closure f | native f | cls k =>
    cases callable
    rfl
  | _ => cases callable

theorem call_uncallable {v : Value} (callable : v.callable? = none) (c : Setting) (m : Machine)
    (callee : Expr) (paren : Token) (arguments : List Value) :
    call c m callee paren v arguments = m.complain paren (.notCallable callee.form v.text) := by
  rw [call, callable]

theorem call_miscounted {v : Value} {target : Callable} (callable : v.callable? = some target)
    {arguments : List Value} (wrong : arguments.length ≠ target.arity) (c : Setting) (m : Machine)
    (callee : Expr) (paren : Token) :
    call c m callee paren v arguments =
      m.complain paren (.argumentCount target.arity arguments.length) := by
  simp only [call, callable, if_pos wrong]

theorem call_cases (c : Setting) (m : Machine) (callee : Expr) (paren : Token) (v : Value)
    (arguments : List Value) :
    (∃ complaint, call c m callee paren v arguments = m.complain paren complaint) ∨
      ∃ target, v.callable? = some target ∧ arguments.length = target.arity ∧
        call c m callee paren v arguments = invoke c m target arguments := by
  cases callable : v.callable? with
  | none => exact .inl ⟨_, call_uncallable callable c m callee paren arguments⟩
  | some target =>
    by_cases right : arguments.length = target.arity
    · refine .inr ⟨target, rfl, right, ?_⟩
      rw [value_of_callable callable]
      exact call_eq_invoke callee paren target right
    · exact .inl ⟨_, call_miscounted callable right c m callee paren⟩

theorem covers_call (c : Setting) (m : Machine) (callee : Expr) (paren : Token) (v : Value)
    (arguments : List Value) : m.Covers (call c m callee paren v arguments) := by
  rcases call_cases c m callee paren v arguments with ⟨_, same⟩ | ⟨_, _, _, same⟩
  · rw [same]
    exact .same rfl
  · rw [same]
    exact covers_invoke c m _ _

/-- A step begins a call expression, goes on with one, or takes off at most the nearest frame and is
plain. -/
theorem step_cases (c : Setting) (going : m.isOver = false) :
    (∃ id callee paren es, m.control = .evaluate (.call id callee paren es)) ∨
      (∃ base v callee paren given rest, m.Supplies base v callee paren given rest) ∨
        ∃ taken kept, m.frames = taken ++ kept ∧ { m with frames := taken }.isOver = false ∧
          Plain { m with frames := kept } (step c m) := by
  obtain ⟨control, frames, scope, depth, store, printed, classes⟩ := m
  cases control with
  | evaluate e =>
    by_cases called : ∃ id callee paren es, e = .call id callee paren es
    · obtain ⟨id, callee, paren, es, rfl⟩ := called
      exact .inl ⟨id, callee, paren, es, rfl⟩
    · have other : ∀ id callee paren es, e ≠ .call id callee paren es :=
        fun id callee paren es same => called ⟨id, callee, paren, es, same⟩
      exact .inr (.inr ⟨[], frames, rfl, rfl, plain_evaluate c _ other⟩)
  | execute s => exact .inr (.inr ⟨[], frames, rfl, rfl, plain_execute _ s⟩)
  | value a =>
    cases frames with
    | nil => cases going
    | cons frame rest =>
      cases part : frame.isPart with
      | false => exact .inr (.inr ⟨[frame], rest, rfl, rfl, plain_resume c _ a part⟩)
      | true =>
        cases frame with
        | callee callee paren es => exact .inr (.inl ⟨_, _, _, _, _, _, .first rfl rfl⟩)
        | argument v callee paren given es => exact .inr (.inl ⟨_, _, _, _, _, _, .next rfl rfl⟩)
        | _ => cases part
  | done =>
    cases frames with
    | nil => cases going
    | cons frame rest => exact .inr (.inr ⟨[frame], rest, rfl, rfl, plain_proceed _ frame⟩)
  | returning a =>
    cases frames with
    | nil => cases going
    | cons frame rest => exact .inr (.inr ⟨[frame], rest, rfl, rfl, plain_passReturn _ a frame⟩)
  | failing g =>
    cases frames with
    | nil => cases going
    | cons frame rest => exact .inr (.inr ⟨[frame], rest, rfl, rfl, plain_passFailure _ frame⟩)

/-- In an earlier state a call expression began, with these frames below it. Its callee gave the
value, its first arguments gave the values, the last one first, and the others are left. -/
def Supplied (c : Setting) (past : Machine → Prop) (below : List Frame) (v : Value) (callee : Expr)
    (paren : Token) (given : List Value) (rest : List Expr) (last : Machine) : Prop :=
  ∃ k id parts first, past k ∧ k.control = .evaluate (.call id callee paren (parts ++ rest)) ∧
    k.frames = below ∧ Evaluates c k callee v first ∧
    EvaluatesAll c first parts given.reverse last

/-- What a frame of a call expression waits for began in an earlier state and has come to the inner
state. -/
def Started (c : Setting) (past : Machine → Prop) (below : List Frame) (inner : Machine) :
    Frame → Prop
  | .callee callee paren es =>
    ∃ k id, past k ∧ k.control = .evaluate (.call id callee paren es) ∧ k.frames = below ∧
      ∃ n, run c n { k with control := .evaluate callee, frames := [] } = inner
  | .argument v callee paren given rest =>
    ∃ e next, Supplied c past below v callee paren given (e :: rest) next ∧
      ∃ n, run c n { next with control := .evaluate e, frames := [] } = inner
  | _ => True

def Traced (c : Setting) (past : Machine → Prop) (m : Machine) : Prop :=
  ∀ inner frame below, m.frames = inner ++ frame :: below →
    Started c past below { m with frames := inner } frame

variable {past : Machine → Prop}

theorem Started.further {below : List Frame} {inner : Machine} {frame : Frame}
    (started : Started c past below inner frame) :
    Started c past below (step c inner) frame := by
  have once : ∀ {x : Machine} {n : Nat}, run c n x = inner → run c (n + 1) x = step c inner :=
    fun same => (run_succ c _ _).trans (congrArg (Machine.step c) same)
  cases frame with
  | callee callee paren es =>
    obtain ⟨k, id, known, control, frames, n, same⟩ := started
    exact ⟨k, id, known, control, frames, n + 1, once same⟩
  | argument v callee paren given rest =>
    obtain ⟨e, next, supplied, n, same⟩ := started
    exact ⟨e, next, supplied, n + 1, once same⟩
  | _ => exact True.intro

theorem Started.later {after : Machine → Prop} (grown : ∀ k, past k → after k) {below : List Frame}
    {inner : Machine} {frame : Frame} (started : Started c past below inner frame) :
    Started c after below inner frame := by
  cases frame with
  | callee callee paren es =>
    obtain ⟨k, id, known, began⟩ := started
    exact ⟨k, id, grown k known, began⟩
  | argument v callee paren given rest =>
    obtain ⟨e, next, ⟨k, id, parts, first, known, began⟩, run⟩ := started
    exact ⟨e, next, ⟨k, id, parts, first, grown k known, began⟩, run⟩
  | _ => exact True.intro

theorem started_of_other {below : List Frame} {inner : Machine} {frame : Frame}
    (other : frame.isPart = false) : Started c past below inner frame := by
  cases frame with
  | callee _ _ _ | argument _ _ _ _ _ => cases other
  | _ => exact True.intro

/-- When a call goes on with its arguments, those that were given are the values of the first
expressions. -/
theorem Traced.supplied (traced : m.Traced c past) {v : Value} {callee : Expr} {paren : Token}
    {given : List Value} {rest : List Expr}
    (supplies : m.Supplies base v callee paren given rest) :
    ∃ last, Supplied c past base.frames v callee paren given rest last ∧
      base = last.above base.frames := by
  refine ⟨{ m with frames := [] }, ?_⟩
  cases supplies with
  | first control frames =>
    obtain ⟨k, id, known, began, same, run⟩ := traced [] _ _ frames
    exact ⟨⟨k, id, [], _, known, began, same, ⟨run, control, rfl⟩, .nil _⟩, rfl⟩
  | next control frames =>
    obtain ⟨e, next, ⟨k, id, parts, first, known, began, same, called, all⟩, run⟩ :=
      traced [] _ _ frames
    refine ⟨⟨k, id, parts ++ [e], first, known, ?_, same, called, ?_⟩, rfl⟩
    · rw [List.append_assoc]
      exact began
    · rw [List.reverse_cons]
      exact all.concat ⟨run, control, rfl⟩

theorem Covers.inner {n : Machine} (covers : m.Covers n) {inner : List Frame} {frame : Frame}
    {below : List Frame} (part : frame.isPart = true) (same : n.frames = inner ++ frame :: below) :
    ∃ kept, m.frames = kept ++ frame :: below := by
  obtain ⟨pushed, frames, others⟩ := covers
  rcases List.append_eq_append_iff.mp (frames.symm.trans same) with
    ⟨kept, _, below⟩ | ⟨kept, before, after⟩
  · exact ⟨kept, below⟩
  · cases kept with
    | nil => exact ⟨[], after.symm⟩
    | cons other rest =>
      have member : frame ∈ pushed := by
        rw [before, (List.cons.inj after).1]
        exact List.mem_append_right _ List.mem_cons_self
      rw [others frame member] at part
      cases part

theorem step_inner {taken inner waiting : List Frame} (frames : m.frames = taken ++ waiting)
    (going : { m with frames := taken }.isOver = false)
    (same : (step c m).frames = inner ++ waiting) :
    step c { m with frames := taken } = { step c m with frames := inner } := by
  have above : step c m = (step c { m with frames := taken }).above waiting := by
    rw [← step_above going, Machine.above, ← frames]
  have own : (step c { m with frames := taken }).frames = inner := by
    rw [above] at same
    exact List.append_cancel_right same
  rw [above, ← own]
  rfl

theorem going_of_taken {taken : List Frame} (going : { m with frames := taken }.isOver = false)
    (more : List Frame) : { m with frames := taken ++ more }.isOver = false := by
  obtain ⟨control, frames, scope, depth, store, printed, classes⟩ := m
  cases control with
  | evaluate e | execute s => rfl
  | value a | done | returning a | failing g =>
    cases taken with
    | nil => cases going
    | cons frame rest => rfl

theorem Traced.step (traced : m.Traced c past) (now : past m) (going : m.isOver = false) :
    (step c m).Traced c past := by
  intro inner frame below same
  cases part : frame.isPart with
  | false => exact started_of_other part
  | true =>
    -- what began before has come one step further
    have old : ∀ taken, m.frames = taken ++ frame :: below →
        { m with frames := taken }.isOver = false →
          Started c past below { Machine.step c m with frames := inner } frame := by
      intro taken frames going
      rw [← step_inner frames going same]
      exact (traced taken frame below frames).further
    rcases step_cases c going with
      ⟨id, callee, paren, es, control⟩ | ⟨base, v, callee, paren, given, rest, supplies⟩ |
        ⟨taken, kept, frames, going, plain⟩
    · have begun : Machine.step c m = m.evaluating callee (.callee callee paren es) := by
        simp only [Machine.step, control]
        rfl
      rw [begun] at same
      cases inner with
      | nil =>
        cases same
        rw [begun]
        exact ⟨m, id, now, control, rfl, 0, rfl⟩
      | cons top inner => exact old inner (List.cons.inj same).2 (by simp only [isOver, control])
    · obtain ⟨top, frames⟩ : ∃ top, m.frames = top :: base.frames := by
        cases supplies with
        | first control frames | next control frames => exact ⟨_, frames⟩
      have inside : ∀ taken, base.frames = taken ++ frame :: below →
          Started c past below { Machine.step c m with frames := inner } frame := by
        intro taken shape
        apply old (top :: taken)
        · rw [frames, shape]
          rfl
        · cases control : m.control <;> simp [isOver]
      have begun := step_of_supplies (c := c) supplies
      cases rest with
      | nil =>
        -- the call itself pushes no such frame, so the frame was below
        rw [begun, supply] at same
        obtain ⟨taken, shape⟩ := (covers_call c base callee paren v given.reverse).inner part same
        exact inside taken shape
      | cons e rest =>
        rw [begun, supply] at same
        cases inner with
        | nil =>
          -- the frame is pushed again, with one value more
          cases same
          obtain ⟨last, supplied, shape⟩ := traced.supplied supplies
          refine ⟨e, last, supplied, 0, ?_⟩
          rw [begun, supply, shape]
          rfl
        | cons top inner => exact inside inner (List.cons.inj same).2
    · obtain ⟨more, shape⟩ := plain.covers.inner part same
      have shape : kept = more ++ frame :: below := shape
      exact old (taken ++ more) (by rw [frames, shape, List.append_assoc]) (going_of_taken going more)

theorem traced_run (others : ∀ frame ∈ m.frames, frame.isPart = false) (n : Nat) :
    (run c n m).Traced c fun k => ∃ i < n, k = run c i m := by
  induction n with
  | zero =>
    intro inner frame below same
    apply started_of_other
    apply others
    rw [run] at same
    rw [same]
    exact List.mem_append_right _ List.mem_cons_self
  | succ n ih =>
    have grown : ∀ k, (∃ i < n, k = run c i m) → ∃ i < n + 1, k = run c i m := by
      rintro k ⟨i, early, here⟩
      exact ⟨i, Nat.lt_succ_of_lt early, here⟩
    have traced : (run c n m).Traced c fun k => ∃ i < n + 1, k = run c i m :=
      fun inner frame below same => (ih inner frame below same).later grown
    rw [run_succ]
    cases halted : (run c n m).isOver with
    | true =>
      rw [(step_of_over c halted).1]
      exact traced
    | false => exact traced.step ⟨n, Nat.lt_succ_self n, rfl⟩ halted

end Machine

end LoxMachine
