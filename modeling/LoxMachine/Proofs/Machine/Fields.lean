import LoxMachine.Proofs.Machine.Evaluates

namespace LoxMachine

def Frame.isStore : Frame → Bool
  | target _ _ | field _ _ => true
  | _ => false

namespace Machine

variable {c : Setting} {m k last : Machine}

/-- The next step stores the value under the name in the object of that number. -/
inductive Stores (m : Machine) : ObjectId → String → Value → Prop
  | mk {v o name waiting} (control : m.control = .value v)
      (frames : m.frames = .field o name :: waiting) : Stores m o.id name.lexeme v

theorem step_storing {v : Value} {o : Object} {name : Token} {waiting : List Frame}
    (control : m.control = .value v) (frames : m.frames = .field o name :: waiting) :
    step c m = { m with frames := waiting, store := m.store.setField o name.lexeme v } := by
  obtain ⟨_, _, _, _, _, _, _⟩ := m
  cases control
  cases frames
  rfl

/-- In the second state, an assignment to a field that began in the first one has its object and the
value for it. -/
def Sets (c : Setting) (m n : Machine) (o : Object) (name : Token) (v : Value) : Prop :=
  ∃ id e value first, m.control = .evaluate (.set id e name value) ∧
    Evaluates c m e (.object o) first ∧ Evaluates c first value v { n with frames := [] } ∧
      n.frames = .field o name :: m.frames

theorem Sets.step {o : Object} {name : Token} {v : Value} (sets : Sets c k m o name v) :
    step c m = { m with
      control := .value v
      frames := k.frames
      store := m.store.setField o name.lexeme v } := by
  obtain ⟨_, _, _, _, _, _, further, frames⟩ := sets
  have control : m.control = .value v := further.control
  rw [step_storing control frames, control]

theorem stores_unique {id id' : ObjectId} {name name' : String} {v w : Value}
    (one : m.Stores id name v) (two : m.Stores id' name' w) : id = id' ∧ name = name' ∧ v = w := by
  cases one with
  | mk control frames =>
    cases two with
    | mk control' frames' =>
      cases control.symm.trans control'
      cases frames.symm.trans frames'
      exact ⟨rfl, rfl, rfl⟩

/-- When the object and the value are evaluated, the value is to be stored. -/
theorem sets_of_set {id : NodeId} {e value : Expr} {name : Token} {o : Object} {v : Value}
    (control : m.control = .evaluate (.set id e name value)) (first : Evaluates c m e (.object o) k)
    (further : Evaluates c k value v last) : ∃ n, Sets c m (run c n m) o name v := by
  let target := Frame.target name value
  let field := Frame.field o name
  obtain ⟨i, reads⟩ := run_evaluates first (target :: m.frames)
  obtain ⟨j, reads'⟩ := run_evaluates further (field :: m.frames)
  have going : m.isOver = false := by simp only [isOver, control]
  have begun : step c m = { m with control := .evaluate e, frames := target :: m.frames } := by
    simp only [step, control]
    rfl
  have next : step c (k.above (target :: m.frames)) =
      { k with control := .evaluate value, frames := field :: m.frames } := by
    simp only [step, above, first.control, first.frames, List.nil_append]
    rfl
  have going' : (k.above (target :: m.frames)).isOver = false := by
    simp [isOver, above, first.control, first.frames]
  have comes : run c ((i + 1) + (j + 1)) m = last.above (field :: m.frames) := by
    rw [run_add, run_of_going going, begun, reads, run_of_going going', next, reads']
  refine ⟨(i + 1) + (j + 1), id, e, value, k, control, first, ?_, ?_⟩
  · have same : { last.above (field :: m.frames) with frames := [] } = last := by
      rw [above, ← further.frames]
    rwa [comes, same]
  · rw [comes, above, further.frames]
    rfl

theorem reading_of_get {id : NodeId} {e : Expr} {name : Token} {o : Object}
    (control : m.control = .evaluate (.get id e name)) (first : Evaluates c m e (.object o) last) :
    ∃ n, run c n m = last.above (.property name :: m.frames) := by
  obtain ⟨i, reads⟩ := run_evaluates first (.property name :: m.frames)
  have going : m.isOver = false := by simp only [isOver, control]
  have begun : step c m =
      { m with control := .evaluate e, frames := .property name :: m.frames } := by
    simp only [step, control]
    rfl
  exact ⟨i + 1, by rw [run_of_going going, begun, reads]⟩

/-- No frames of an assignment to a field are pushed, and the objects keep their fields; there is
perhaps one object more, without any. -/
structure Mild (m n : Machine) : Prop where
  frames : ∃ pushed, n.frames = pushed ++ m.frames ∧ ∀ frame ∈ pushed, frame.isStore = false
  fields : n.store.fields = m.store.fields ∨ n.store.fields = m.store.fields.push []

theorem Mild.still {n : Machine} (frames : n.frames = m.frames)
    (fields : n.store.fields = m.store.fields) : m.Mild n :=
  ⟨⟨[], frames, List.forall_mem_nil _⟩, .inl fields⟩

theorem Mild.pushed {n : Machine} {frame : Frame} (frames : n.frames = frame :: m.frames)
    (other : frame.isStore = false) (fields : n.store.fields = m.store.fields) : m.Mild n :=
  ⟨⟨[frame], frames, List.forall_mem_singleton.mpr other⟩, .inl fields⟩

theorem mild_giveResult (m : Machine) (result : Except Failure Value) :
    m.Mild (m.giveResult result) := by
  cases result <;> exact .still rfl rfl

theorem mild_giveBound (m : Machine) (result : Except ScopeError Value) :
    m.Mild (m.giveBound result) := by
  cases result <;> exact .still rfl rfl

theorem mild_lookUp (c : Setting) (m : Machine) (id : NodeId) (name : Token) :
    m.Mild (lookUp c m id name) := by
  unfold lookUp
  split
  · exact mild_giveBound m _
  · split <;> exact .still rfl rfl

theorem mild_assignTo (c : Setting) (m : Machine) (id : NodeId) (name : Token) (v : Value) :
    m.Mild (assignTo c m id name v) := by
  unfold assignTo
  repeat' split
  all_goals exact .still rfl rfl

theorem mild_lookUpSuper (c : Setting) (m : Machine) (id : NodeId) (method : Token) :
    m.Mild (lookUpSuper c m id method) := by
  unfold lookUpSuper
  repeat' split
  all_goals exact .still rfl rfl

theorem mild_readProperty (m : Machine) (name : Token) (v : Value) :
    m.Mild (m.readProperty name v) := by
  unfold readProperty
  repeat' split
  all_goals exact .still rfl rfl

theorem mild_defineClass (m : Machine) (name : Token) (superclass : Option Class)
    (methods : List FunctionDecl) : m.Mild (m.defineClass name superclass methods) := by
  cases superclass <;> exact .still rfl rfl

theorem fields_bindParameters (s : Store) (e : ScopeId) (params : List Token)
    (arguments : List Value) : (bindParameters s e params arguments).fields = s.fields := by
  induction params generalizing s arguments with
  | nil => rfl
  | cons param rest ih =>
    cases arguments with
    | nil => rfl
    | cons a others => exact ih _ others

theorem mild_enter (c : Setting) (m : Machine) (f : Closure) (arguments : List Value) :
    m.Mild (enter c m f arguments) := by
  unfold enter
  split
  · exact .still rfl rfl
  · refine ⟨⟨[_, _], rfl, by simp [Frame.isStore]⟩, .inl ?_⟩
    exact fields_bindParameters _ _ _ _

theorem mild_instantiate (c : Setting) (m : Machine) (k : Class) (arguments : List Value) :
    m.Mild (instantiate c m k arguments) := by
  unfold instantiate
  cases k.initializer with
  | none => exact ⟨⟨[], rfl, List.forall_mem_nil _⟩, .inr rfl⟩
  | some method =>
    let made := m.store.instantiate k
    let bound := made.1.bind method (.object made.2)
    have entered := mild_enter c
      { m with store := bound.1, frames := .construct made.2 :: m.frames } bound.2 arguments
    obtain ⟨pushed, frames, others⟩ := entered.frames
    refine ⟨⟨pushed ++ [.construct made.2], ?_, ?_⟩, ?_⟩
    · rw [List.append_assoc]
      exact frames
    · intro frame member
      rcases List.mem_append.mp member with before | here
      · exact others frame before
      · rw [List.mem_singleton.mp here]
        rfl
    · -- the scope of the initializer is opened after the object was made
      have same : (enter c { m with store := bound.1, frames := .construct made.2 :: m.frames }
          bound.2 arguments).store.fields = m.store.fields.push [] := by
        unfold enter
        split
        · rfl
        · exact fields_bindParameters _ _ _ _
      exact .inr same

theorem mild_callHost (m : Machine) (f : Native) (arguments : List Value) :
    m.Mild (m.callHost f arguments) := by
  have same := Store.fields_callHost (s := m.store) f arguments
  unfold callHost
  dsimp only
  split <;> exact .still rfl same

theorem mild_call (c : Setting) (m : Machine) (callee : Expr) (paren : Token) (v : Value)
    (arguments : List Value) : m.Mild (call c m callee paren v arguments) := by
  rcases call_cases c m callee paren v arguments with ⟨_, same⟩ | ⟨target, _, _, same⟩
  · rw [same]
    exact .still rfl rfl
  · rw [same]
    cases target with
    | closure f => exact mild_enter c m f arguments
    | native f => exact mild_callHost m f arguments
    | cls k => exact mild_instantiate c m k arguments

theorem mild_supply (c : Setting) (m : Machine) (v : Value) (callee : Expr) (paren : Token)
    (given : List Value) (arguments : List Expr) :
    m.Mild (supply c m v callee paren given arguments) := by
  cases arguments with
  | nil => exact mild_call c m callee paren v given.reverse
  | cons e rest => exact .pushed rfl rfl rfl

theorem mild_evaluate (c : Setting) (m : Machine) {e : Expr}
    (other : ∀ id object name value, e ≠ .set id object name value) : m.Mild (evaluate c m e) := by
  cases e with
  | set id object name value => exact absurd rfl (other id object name value)
  | literal _ value => exact .still rfl rfl
  | grouping _ inner => exact .still rfl rfl
  | read use => exact mild_lookUp c m _ _
  | this id keyword => exact mild_lookUp c m _ _
  | super id keyword method => exact mild_lookUpSuper c m _ _
  | assign _ _ _ | unary _ _ _ | binary _ _ _ _ | logical _ _ _ _ | get _ _ _ | call _ _ _ _ =>
    exact .pushed rfl rfl rfl

theorem mild_execute (m : Machine) (s : Stmt) : m.Mild (execute m s) := by
  cases s with
  | expression _ e | print _ e | branch _ e _ _ | loop _ e _ => exact .pushed rfl rfl rfl
  | var _ name initializer | returns _ name initializer =>
    cases initializer with
    | none => exact .still rfl rfl
    | some e => exact .pushed rfl rfl rfl
  | block _ body => exact ⟨⟨[_, _], rfl, by simp [Frame.isStore]⟩, .inl rfl⟩
  | function decl => exact .still rfl rfl
  | classDecl _ name superclass methods =>
    cases superclass with
    | none => exact mild_defineClass m name none methods
    | some base => exact .pushed rfl rfl rfl

theorem mild_leaveCall (m : Machine) (scope : ScopeId) (initialized : Option ScopeId) (v : Value) :
    m.Mild (m.leaveCall scope initialized v) := by
  cases initialized with
  | none => exact .still rfl rfl
  | some own =>
    obtain ⟨frames, fields⟩ := mild_giveBound { m with scope, depth := m.depth - 1 }
      (m.store.scopes.get own "this")
    exact ⟨frames, fields⟩

theorem mild_resume (c : Setting) (m : Machine) (v : Value) {frame : Frame}
    (other : frame.isStore = false) : m.Mild (resume c m v frame) := by
  cases frame with
  | target _ _ | field _ _ => cases other
  | assign id name => exact mild_assignTo c m id name v
  | operand _ | rightOperand _ _ _ _ => exact mild_giveResult m _
  | leftOperand _ _ _ => exact .pushed rfl rfl rfl
  | shortcut operator right =>
    rw [resume]
    split <;> exact .still rfl rfl
  | callee callee paren arguments => exact mild_supply c m v callee paren [] arguments
  | argument called callee paren given rest =>
    exact mild_supply c m called callee paren (v :: given) rest
  | property name => exact mild_readProperty m name v
  | test condition body =>
    rw [resume]
    split
    · exact .pushed rfl rfl rfl
    · exact .still rfl rfl
  | choose yes no =>
    cases no with
    | none | some s =>
      rw [resume]
      split <;> exact .still rfl rfl
  | heritage superclass name methods =>
    cases v with
    | cls base => exact mild_defineClass m name (some base) methods
    | _ => exact .still rfl rfl
  | discard | print | define _ | giveBack | construct _ | again _ _ | sequence _ | leaveBlock _
  | leaveCall _ _ => exact .still rfl rfl

theorem mild_proceed (m : Machine) (frame : Frame) : m.Mild (proceed m frame) := by
  cases frame with
  | again _ _ => exact .pushed rfl rfl rfl
  | sequence statements =>
    cases statements with
    | nil => exact .still rfl rfl
    | cons s rest => exact .pushed rfl rfl rfl
  | leaveCall scope initialized => exact mild_leaveCall m _ _ _
  | _ => exact .still rfl rfl

theorem mild_passReturn (m : Machine) (v : Value) (frame : Frame) :
    m.Mild (passReturn m v frame) := by
  cases frame with
  | leaveCall scope initialized => exact mild_leaveCall m _ _ _
  | _ => exact .still rfl rfl

theorem mild_passFailure (m : Machine) (frame : Frame) : m.Mild (passFailure m frame) := by
  cases frame <;> exact .still rfl rfl

/-- A step begins an assignment to a field, has its object, stores its value, or takes off at most
the nearest frame and is mild. -/
theorem store_cases (c : Setting) (going : m.isOver = false) :
    (∃ id e name value, m.control = .evaluate (.set id e name value)) ∨
      (∃ o name value waiting, m.control = .value (.object o) ∧
        m.frames = .target name value :: waiting) ∨
      (∃ v o name waiting, m.control = .value v ∧ m.frames = .field o name :: waiting) ∨
      ∃ taken kept, m.frames = taken ++ kept ∧ { m with frames := taken }.isOver = false ∧
        Mild { m with frames := kept } (step c m) := by
  obtain ⟨control, frames, scope, depth, store, printed, classes⟩ := m
  cases control with
  | evaluate e =>
    by_cases assigned : ∃ id object name value, e = .set id object name value
    · obtain ⟨id, object, name, value, rfl⟩ := assigned
      exact .inl ⟨id, object, name, value, rfl⟩
    · have other : ∀ id object name value, e ≠ .set id object name value :=
        fun id object name value same => assigned ⟨id, object, name, value, same⟩
      exact .inr (.inr (.inr ⟨[], frames, rfl, rfl, mild_evaluate c _ other⟩))
  | execute s => exact .inr (.inr (.inr ⟨[], frames, rfl, rfl, mild_execute _ s⟩))
  | value v =>
    cases frames with
    | nil => cases going
    | cons frame rest =>
      cases assigned : frame.isStore with
      | false => exact .inr (.inr (.inr ⟨[frame], rest, rfl, rfl, mild_resume c _ v assigned⟩))
      | true =>
        cases frame with
        | target name value =>
          cases v with
          | object o => exact .inr (.inl ⟨o, name, value, rest, rfl, rfl⟩)
          | _ => exact .inr (.inr (.inr ⟨[_], rest, rfl, rfl, .still rfl rfl⟩))
        | field o name => exact .inr (.inr (.inl ⟨v, o, name, rest, rfl, rfl⟩))
        | _ => cases assigned
  | done =>
    cases frames with
    | nil => cases going
    | cons frame rest => exact .inr (.inr (.inr ⟨[frame], rest, rfl, rfl, mild_proceed _ frame⟩))
  | returning v =>
    cases frames with
    | nil => cases going
    | cons frame rest =>
      exact .inr (.inr (.inr ⟨[frame], rest, rfl, rfl, mild_passReturn _ v frame⟩))
  | failing f =>
    cases frames with
    | nil => cases going
    | cons frame rest =>
      exact .inr (.inr (.inr ⟨[frame], rest, rfl, rfl, mild_passFailure _ frame⟩))

theorem step_targeted {o : Object} {name : Token} {value : Expr} {waiting : List Frame}
    (control : m.control = .value (.object o)) (frames : m.frames = .target name value :: waiting) :
    step c m = { m with control := .evaluate value, frames := .field o name :: waiting } := by
  obtain ⟨_, _, _, _, _, _, _⟩ := m
  cases control
  cases frames
  rfl

theorem fields_step (c : Setting) (m : Machine) :
    (∃ v o name waiting, m.control = .value v ∧ m.frames = .field o name :: waiting) ∨
      (∀ id name v, ¬ m.Stores id name v) ∧ ((step c m).store.fields = m.store.fields ∨
        (step c m).store.fields = m.store.fields.push []) := by
  by_cases storing : ∃ v o name waiting, m.control = .value v ∧ m.frames = .field o name :: waiting
  · exact .inl storing
  refine .inr ⟨?_, ?_⟩
  · rintro id name v ⟨control, frames⟩
    exact storing ⟨_, _, _, _, control, frames⟩
  cases going : m.isOver with
  | true =>
    rw [(step_of_over c going).1]
    exact .inl rfl
  | false =>
    rcases store_cases c going with
      ⟨id, e, name, value, control⟩ | ⟨o, name, value, waiting, control, frames⟩ | stores |
        ⟨taken, kept, _, _, mild⟩
    · have begun : step c m = m.evaluating e (.target name value) := by
        simp only [step, control]
        rfl
      rw [begun]
      exact .inl rfl
    · rw [step_targeted control frames]
      exact .inl rfl
    · exact absurd stores storing
    · exact mild.fields

/-- What a frame of an assignment to a field waits for began in an earlier state and has come to the
inner state. -/
def Aimed (c : Setting) (past : Machine → Prop) (below : List Frame) (inner : Machine) :
    Frame → Prop
  | .target name value =>
    ∃ k id e, past k ∧ k.control = .evaluate (.set id e name value) ∧ k.frames = below ∧
      ∃ n, run c n { k with control := .evaluate e, frames := [] } = inner
  | .field o name =>
    ∃ k id e value first, past k ∧ k.control = .evaluate (.set id e name value) ∧
      k.frames = below ∧ Evaluates c k e (.object o) first ∧
        ∃ n, run c n { first with control := .evaluate value, frames := [] } = inner
  | _ => True

def Tracked (c : Setting) (past : Machine → Prop) (m : Machine) : Prop :=
  ∀ inner frame below, m.frames = inner ++ frame :: below →
    Aimed c past below { m with frames := inner } frame

variable {past : Machine → Prop}

theorem aimed_of_other {below : List Frame} {inner : Machine} {frame : Frame}
    (other : frame.isStore = false) : Aimed c past below inner frame := by
  cases frame with
  | target _ _ | field _ _ => cases other
  | _ => exact True.intro

theorem Aimed.further {below : List Frame} {inner : Machine} {frame : Frame}
    (aimed : Aimed c past below inner frame) : Aimed c past below (step c inner) frame := by
  have once : ∀ {x : Machine} {n : Nat}, run c n x = inner → run c (n + 1) x = step c inner :=
    fun same => (run_succ c _ _).trans (congrArg (Machine.step c) same)
  cases frame with
  | target name value =>
    obtain ⟨k, id, e, known, control, frames, n, same⟩ := aimed
    exact ⟨k, id, e, known, control, frames, n + 1, once same⟩
  | field o name =>
    obtain ⟨k, id, e, value, first, known, control, frames, evaluates, n, same⟩ := aimed
    exact ⟨k, id, e, value, first, known, control, frames, evaluates, n + 1, once same⟩
  | _ => exact True.intro

theorem Aimed.later {after : Machine → Prop} (grown : ∀ k, past k → after k) {below : List Frame}
    {inner : Machine} {frame : Frame} (aimed : Aimed c past below inner frame) :
    Aimed c after below inner frame := by
  cases frame with
  | target name value =>
    obtain ⟨k, id, e, known, began⟩ := aimed
    exact ⟨k, id, e, grown k known, began⟩
  | field o name =>
    obtain ⟨k, id, e, value, first, known, began⟩ := aimed
    exact ⟨k, id, e, value, first, grown k known, began⟩
  | _ => exact True.intro

theorem Tracked.sets {v : Value} {o : Object} {name : Token} {waiting : List Frame}
    (tracked : m.Tracked c past) (control : m.control = .value v)
    (frames : m.frames = .field o name :: waiting) : ∃ k, past k ∧ Sets c k m o name v := by
  obtain ⟨k, id, e, value, first, known, began, same, evaluates, run⟩ := tracked [] _ _ frames
  exact ⟨k, known, id, e, value, first, began, evaluates, ⟨run, control, rfl⟩, same ▸ frames⟩

theorem Mild.inner {n : Machine} (mild : m.Mild n) {inner : List Frame} {frame : Frame}
    {below : List Frame} (assigned : frame.isStore = true)
    (same : n.frames = inner ++ frame :: below) : ∃ kept, m.frames = kept ++ frame :: below := by
  obtain ⟨pushed, frames, others⟩ := mild.frames
  rcases List.append_eq_append_iff.mp (frames.symm.trans same) with
    ⟨kept, _, below⟩ | ⟨kept, before, after⟩
  · exact ⟨kept, below⟩
  · cases kept with
    | nil => exact ⟨[], after.symm⟩
    | cons other rest =>
      have member : frame ∈ pushed := by
        rw [before, (List.cons.inj after).1]
        exact List.mem_append_right _ List.mem_cons_self
      rw [others frame member] at assigned
      cases assigned

theorem Tracked.step (tracked : m.Tracked c past) (now : past m) (going : m.isOver = false) :
    (step c m).Tracked c past := by
  intro inner frame below same
  cases assigned : frame.isStore with
  | false => exact aimed_of_other assigned
  | true =>
    -- what began before has come one step further
    have old : ∀ taken, m.frames = taken ++ frame :: below →
        { m with frames := taken }.isOver = false →
          Aimed c past below { Machine.step c m with frames := inner } frame := by
      intro taken frames going
      rw [← step_inner frames going same]
      exact (tracked taken frame below frames).further
    rcases store_cases c going with
      ⟨id, e, name, value, control⟩ | ⟨o, name, value, waiting, control, frames⟩ |
        ⟨v, o, name, waiting, control, frames⟩ | ⟨taken, kept, frames, going, mild⟩
    · have begun : Machine.step c m = m.evaluating e (.target name value) := by
        simp only [Machine.step, control]
        rfl
      rw [begun] at same
      cases inner with
      | nil =>
        cases same
        rw [begun]
        exact ⟨m, id, e, now, control, rfl, 0, rfl⟩
      | cons top inner => exact old inner (List.cons.inj same).2 (by simp only [isOver, control])
    · have begun := step_targeted (c := c) control frames
      rw [begun] at same
      cases inner with
      | nil =>
        -- the object is known, and its value begins
        cases same
        obtain ⟨k, id, e, known, began, below, run⟩ := tracked [] _ _ frames
        rw [begun]
        exact ⟨k, id, e, value, _, known, began, below, ⟨run, control, rfl⟩, 0, rfl⟩
      | cons top inner =>
        apply old (.target name value :: inner)
        · rw [frames, (List.cons.inj same).2]
          rfl
        · simp [isOver, control]
    · have begun := step_storing (c := c) control frames
      rw [begun] at same
      apply old (.field o name :: inner)
      · rw [frames]
        exact congrArg (_ :: ·) same
      · simp [isOver, control]
    · obtain ⟨more, shape⟩ := mild.inner assigned same
      have shape : kept = more ++ frame :: below := shape
      exact old (taken ++ more) (by rw [frames, shape, List.append_assoc]) (going_of_taken going more)

theorem tracked_run (others : ∀ frame ∈ m.frames, frame.isStore = false) (n : Nat) :
    (run c n m).Tracked c fun k => ∃ i < n, k = run c i m := by
  induction n with
  | zero =>
    intro inner frame below same
    apply aimed_of_other
    apply others
    rw [run] at same
    rw [same]
    exact List.mem_append_right _ List.mem_cons_self
  | succ n ih =>
    have grown : ∀ k, (∃ i < n, k = run c i m) → ∃ i < n + 1, k = run c i m := by
      rintro k ⟨i, early, here⟩
      exact ⟨i, Nat.lt_succ_of_lt early, here⟩
    have tracked : (run c n m).Tracked c fun k => ∃ i < n + 1, k = run c i m :=
      fun inner frame below same => (ih inner frame below same).later grown
    rw [run_succ]
    cases halted : (run c n m).isOver with
    | true =>
      rw [(step_of_over c halted).1]
      exact tracked
    | false => exact tracked.step ⟨n, Nat.lt_succ_self n, rfl⟩ halted

end Machine

end LoxMachine
