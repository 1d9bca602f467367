import LoxMachine.Proofs.Machine.Preservation

namespace LoxMachine

open Static

def Frame.isCall : Frame → Bool
  | .leaveCall _ _ => true
  | _ => false

namespace Machine

def calls (frames : List Frame) : Nat := (frames.filter Frame.isCall).length

def Counted (m : Machine) : Prop := m.depth = calls m.frames

variable {c : Setting} {m : Machine}

theorem Counted.push (counted : m.Counted) {frame : Frame} (plain : frame.isCall = false)
    (control : Control) : Counted { m with control, frames := frame :: m.frames } :=
  counted.trans (congrArg List.length (List.filter_cons_of_neg (by simp [plain])).symm)

theorem Counted.evaluating (counted : m.Counted) (e : Expr) {frame : Frame}
    (plain : frame.isCall = false) : (m.evaluating e frame).Counted := counted.push plain _

theorem Counted.giveResult (counted : m.Counted) (result : Except Failure Value) :
    (m.giveResult result).Counted := by
  cases result <;> exact counted

theorem Counted.giveBound (counted : m.Counted) (result : Except ScopeError Value) :
    (m.giveBound result).Counted := by
  cases result <;> exact counted

theorem Counted.lookUp (counted : m.Counted) (id : NodeId) (name : Token) :
    (lookUp c m id name).Counted := by
  unfold Machine.lookUp
  split
  · exact counted.giveBound _
  · split <;> exact counted

theorem Counted.assignTo (counted : m.Counted) (id : NodeId) (name : Token) (a : Value) :
    (assignTo c m id name a).Counted := by
  unfold Machine.assignTo
  split
  · split <;> exact counted
  · split <;> exact counted

theorem Counted.lookUpSuper (counted : m.Counted) (id : NodeId) (method : Token) :
    (lookUpSuper c m id method).Counted := by
  unfold Machine.lookUpSuper
  split
  · exact counted
  · split
    · exact counted
    · split
      · exact counted
      · split
        · split <;> exact counted
        · exact counted

theorem Counted.evaluate (counted : m.Counted) (e : Expr) : (evaluate c m e).Counted := by
  cases e with
  | literal | grouping => exact counted
  | read use => exact counted.lookUp use.id use.name
  | this id keyword => exact counted.lookUp id keyword
  | super id keyword method => exact counted.lookUpSuper id method
  | _ => exact counted.evaluating _ rfl

theorem Counted.enter (counted : m.Counted) (f : Closure) (arguments : List Value) :
    (enter c m f arguments).Counted := by
  unfold Machine.enter
  split
  · exact counted
  · change m.depth + 1 = calls m.frames + 1
    rw [counted]

theorem Counted.instantiate (counted : m.Counted) (cls : Class) (arguments : List Value) :
    (instantiate c m cls arguments).Counted := by
  unfold Machine.instantiate
  cases m.store.instantiate cls with
  | mk store object =>
    cases cls.initializer with
    | none => exact counted
    | some method =>
      refine Counted.enter ?_ _ arguments
      exact counted

theorem Counted.callHost (counted : m.Counted) (f : Native) (arguments : List Value) :
    (m.callHost f arguments).Counted := by
  unfold Machine.callHost
  cases m.store.callHost f arguments with
  | mk store reply => cases reply <;> exact counted

theorem Counted.call (counted : m.Counted) (callee : Expr) (paren : Token) (a : Value)
    (arguments : List Value) : (call c m callee paren a arguments).Counted := by
  unfold Machine.call
  split
  · exact counted
  · split
    · exact counted
    · split
      · exact counted.enter _ arguments
      · exact counted.callHost _ arguments
      · exact counted.instantiate _ arguments

theorem Counted.supply (counted : m.Counted) (a : Value) (callee : Expr) (paren : Token)
    (given : List Value) (arguments : List Expr) :
    (supply c m a callee paren given arguments).Counted := by
  cases arguments with
  | nil => exact counted.call callee paren a given.reverse
  | cons e rest => exact counted.evaluating e rfl

theorem Counted.readProperty (counted : m.Counted) (name : Token) (a : Value) :
    (m.readProperty name a).Counted := by
  unfold Machine.readProperty
  split
  · split
    · exact counted
    · split <;> exact counted
  · exact counted

theorem Counted.execute (counted : m.Counted) (s : Stmt) : (execute m s).Counted := by
  cases s with
  | var id name initializer =>
    cases initializer with
    | none => exact counted
    | some e => exact counted.evaluating e rfl
  | returns id keyword value =>
    cases value with
    | none => exact counted
    | some e => exact counted.evaluating e rfl
  | classDecl id name superclass methods =>
    cases superclass with
    | none => exact counted
    | some use => exact counted.evaluating _ rfl
  | function decl => exact counted
  | block id body => exact counted
  | _ => exact counted.evaluating _ rfl

theorem Counted.leaveCall (counted : m.depth = calls m.frames + 1) (scope : ScopeId)
    (initialized : Option ScopeId) (a : Value) : (m.leaveCall scope initialized a).Counted := by
  have fewer : m.depth - 1 = calls m.frames := by omega
  cases initialized with
  | none => exact fewer
  | some e => exact Counted.giveBound (m := { m with scope, depth := m.depth - 1 }) fewer _

theorem Counted.resume (counted : m.Counted) (a : Value) (frame : Frame) :
    (resume c m a frame).Counted := by
  cases frame with
  | assign id name => exact counted.assignTo id name a
  | operand operator => exact counted.giveResult _
  | rightOperand leftValue left operator right => exact counted.giveResult _
  | leftOperand left operator right => exact counted.evaluating right rfl
  | callee callee paren arguments => exact counted.supply a callee paren [] arguments
  | argument calleeValue callee paren given rest =>
    exact counted.supply calleeValue callee paren (a :: given) rest
  | property name => exact counted.readProperty name a
  | target name value =>
    cases a with
    | object o => exact counted.evaluating value rfl
    | _ => exact counted
  | shortcut operator right =>
    simp only [Machine.resume]
    split <;> exact counted
  | choose yes no =>
    simp only [Machine.resume]
    split
    · exact counted
    · split <;> exact counted
  | test condition body =>
    simp only [Machine.resume]
    split
    · exact counted.push rfl _
    · exact counted
  | heritage superclass name methods => cases a <;> exact counted
  | _ => exact counted

theorem Counted.proceed {frame : Frame} (counted : m.depth = calls (frame :: m.frames)) :
    (m.proceed frame).Counted := by
  cases frame with
  | leaveCall scope initialized => exact Counted.leaveCall counted scope initialized .nil
  | again condition body => exact Counted.evaluating (m := m) counted condition rfl
  | sequence rest =>
    cases rest with
    | nil => exact counted
    | cons s rest => exact Counted.push (m := m) counted rfl _
  | _ => exact counted

theorem Counted.passReturn {frame : Frame} (counted : m.depth = calls (frame :: m.frames))
    (a : Value) : (m.passReturn a frame).Counted := by
  cases frame with
  | leaveCall scope initialized => exact Counted.leaveCall counted scope initialized a
  | _ => exact counted

theorem Counted.passFailure {frame : Frame} (counted : m.depth = calls (frame :: m.frames)) :
    (m.passFailure frame).Counted := by
  cases frame with
  | leaveCall scope initialized => exact Nat.sub_eq_of_eq_add counted
  | _ => exact counted

theorem plain_of_fits {w : World} {p : Site} {e : ScopeId} {frame : Frame} {rest : List Frame}
    (fit : FramesFit w (.value p) e (frame :: rest)) : frame.isCall = false := by
  cases fit with
  | expression _ waits _ => cases frame <;> first | rfl | exact absurd waits id
  | statement waits _ => cases frame <;> first | rfl | exact absurd waits id
  | define | heritage => rfl

theorem counted_step (waits : ∀ a frame rest, m.control = .value a → m.frames = frame :: rest →
    frame.isCall = false) (counted : m.Counted) : (step c m).Counted := by
  obtain ⟨control, frames, scope, depth, store, printed, classes⟩ := m
  cases control with
  | evaluate e => exact counted.evaluate e
  | execute s => exact counted.execute s
  | value a =>
    cases frames with
    | nil => exact counted
    | cons frame frames =>
      have plain := waits a frame frames rfl rfl
      have same : calls (frame :: frames) = calls frames :=
        congrArg List.length (List.filter_cons_of_neg (by simp [plain]))
      exact Counted.resume (m := ⟨_, frames, scope, depth, store, printed, classes⟩)
        (counted.trans same) a frame
  | done =>
    cases frames with
    | nil => exact counted
    | cons frame frames =>
      exact Counted.proceed (m := ⟨_, frames, scope, depth, store, printed, classes⟩) counted
  | returning a =>
    cases frames with
    | nil => exact counted
    | cons frame frames =>
      exact Counted.passReturn (m := ⟨_, frames, scope, depth, store, printed, classes⟩) counted a
  | failing f =>
    cases frames with
    | nil => exact counted
    | cons frame frames =>
      exact Counted.passFailure (m := ⟨_, frames, scope, depth, store, printed, classes⟩) counted

theorem counted_run {G : Occurrence → Prop} {shape : List Origin} (resolves : Resolves c.distances G)
    (fits : m.Fits G shape) (counted : m.Counted) (n : Nat) : (run c n m).Counted := by
  induction n generalizing m shape with
  | zero => exact counted
  | succ n ih =>
    unfold run
    split
    · exact counted
    · refine ih (fits_step resolves fits) (counted_step ?_ counted)
      intro a frame rest control frames
      cases fits with
      | value p at_phrase expects stands fits =>
        have frames_fit := expects.frames
        rw [frames] at frames_fit
        exact plain_of_fits frames_fit
      | evaluate p at_phrase | execute context levels at_phrase | done context levels at_phrase
      | returning context levels at_phrase | failing demand at_phrase => cases at_phrase.symm.trans control

end Machine

end LoxMachine
