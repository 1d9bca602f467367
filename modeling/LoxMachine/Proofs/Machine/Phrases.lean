import LoxMachine.Proofs.Machine.Quiet
import LoxMachine.Proofs.Machine.Recorded
import LoxMachine.Proofs.Recode.Step

namespace LoxMachine

open Static

def Past.Writes (w : Past) (id : NodeId) (name : Token) : Prop :=
  ∃ program ∈ w.programs, ∃ around value, Evaluates program around (.assign id name value)

def Expr.Phrased (w : Past) (e : Expr) : Prop :=
  ∀ id name value, e.Contains (.assign id name value) → w.Writes id name

theorem Expr.Phrased.part {w : Past} {e part : Expr} (phrased : e.Phrased w)
    (member : part ∈ e.parts) : part.Phrased w :=
  fun id name value contains => phrased id name value (.inside member contains)

theorem Expr.phrased_read (w : Past) (use : Variable) : (Expr.read use).Phrased w := by
  intro id name value contains
  cases contains with
  | inside member _ => cases member

theorem Past.Written.phrased {w : Past} {s : Stmt} (written : w.Written s) {e : Expr}
    (own : e ∈ s.exprs) : e.Phrased w := by
  obtain ⟨program, member, around, stands⟩ := written
  exact fun id name value contains => ⟨program, member, around, value, s, stands, e, own, contains⟩

/-- A frame whose assignments are written in the programs. -/
def Frame.Phrased (w : Past) : Frame → Prop
  | assign id name => w.Writes id name
  | leftOperand _ _ right | shortcut _ right => right.Phrased w
  | callee _ _ arguments | argument _ _ _ _ arguments => ∀ e ∈ arguments, e.Phrased w
  | target _ value => value.Phrased w
  | test condition _ | again condition _ => condition.Phrased w
  | operand _ | rightOperand _ _ _ _ | property _ | field _ _ | discard | print | define _
  | choose _ _ | giveBack | heritage _ _ _ | sequence _ | leaveBlock _ | leaveCall _ _
  | construct _ => True

def Control.Phrased (w : Past) : Control → Prop
  | evaluate e => e.Phrased w
  | execute _ | value _ | done | returning _ | failing _ => True

namespace Machine

structure Phrased (w : Past) (m : Machine) : Prop where
  control : m.control.Phrased w
  frames : ∀ frame ∈ m.frames, frame.Phrased w

variable {w : Past} {c : Setting} {m : Machine}

theorem Phrased.rest {n : Machine} (phrased : n.Phrased w) (pushed : List Frame)
    (frames : m.frames = pushed ++ n.frames) (others : ∀ frame ∈ pushed, frame.Phrased w)
    (control : m.control.Phrased w) : m.Phrased w := by
  refine ⟨control, fun frame member => ?_⟩
  rw [frames] at member
  rcases List.mem_append.mp member with new | old
  · exact others frame new
  · exact phrased.frames frame old

theorem Phrased.idle {n : Machine} (phrased : n.Phrased w) (frames : m.frames = n.frames)
    (control : m.control.Phrased w) : m.Phrased w :=
  phrased.rest [] frames (List.forall_mem_nil _) control

theorem Phrased.evaluating (phrased : m.Phrased w) {e : Expr} (known : e.Phrased w) {frame : Frame}
    (waits : frame.Phrased w) : (m.evaluating e frame).Phrased w :=
  phrased.rest [frame] rfl (List.forall_mem_singleton.mpr waits) known

theorem Phrased.quiet {n : Machine} (phrased : n.Phrased w) (quiet : n.Quiet m) : m.Phrased w := by
  refine phrased.idle quiet.frames ?_
  have idle := quiet.control
  cases control : m.control with
  | evaluate e => cases control ▸ idle
  | _ => exact True.intro

theorem Phrased.enter (phrased : m.Phrased w) (f : Closure) (arguments : List Value) :
    (enter c m f arguments).Phrased w := by
  unfold Machine.enter
  split
  · exact phrased.idle rfl True.intro
  · refine phrased.rest [_, _] rfl ?_ True.intro
    exact List.forall_mem_cons.mpr ⟨True.intro, List.forall_mem_singleton.mpr True.intro⟩

theorem Phrased.instantiate (phrased : m.Phrased w) (k : Class) (arguments : List Value) :
    (instantiate c m k arguments).Phrased w := by
  unfold Machine.instantiate
  cases k.initializer with
  | none => exact phrased.idle rfl True.intro
  | some method =>
    apply Phrased.enter
    exact phrased.rest [_] rfl (List.forall_mem_singleton.mpr True.intro) phrased.control

theorem Phrased.callHost (phrased : m.Phrased w) (f : Native) (arguments : List Value) :
    (m.callHost f arguments).Phrased w := by
  unfold Machine.callHost
  dsimp only
  split <;> exact phrased.idle rfl True.intro

theorem Phrased.call (phrased : m.Phrased w) (callee : Expr) (paren : Token) (v : Value)
    (arguments : List Value) : (call c m callee paren v arguments).Phrased w := by
  unfold Machine.call
  split
  · exact phrased.idle rfl True.intro
  · split
    · exact phrased.idle rfl True.intro
    · split
      · exact phrased.enter _ _
      · exact phrased.callHost _ _
      · exact phrased.instantiate _ _

theorem Phrased.supply (phrased : m.Phrased w) (v : Value) (callee : Expr) (paren : Token)
    (given : List Value) {rest : List Expr} (known : ∀ e ∈ rest, e.Phrased w) :
    (supply c m v callee paren given rest).Phrased w := by
  cases rest with
  | nil => exact phrased.call callee paren v given.reverse
  | cons e rest =>
    obtain ⟨first, others⟩ := List.forall_mem_cons.mp known
    exact phrased.evaluating first others

theorem Phrased.leaveCall (phrased : m.Phrased w) (scope : ScopeId) (initialized : Option ScopeId)
    (a : Value) : (m.leaveCall scope initialized a).Phrased w := by
  have left : Phrased w { m with scope, depth := m.depth - 1 } := ⟨phrased.control, phrased.frames⟩
  exact left.quiet (quiet_leaveCall m scope initialized a)

theorem Phrased.evaluate (phrased : m.Phrased w) {e : Expr} (known : e.Phrased w) :
    (evaluate c m e).Phrased w := by
  have part : ∀ inner ∈ e.parts, inner.Phrased w := fun inner member => known.part member
  cases e with
  | literal _ value => exact phrased.idle rfl True.intro
  | read use => exact phrased.quiet (quiet_lookUp c m _ _)
  | this id keyword => exact phrased.quiet (quiet_lookUp c m _ _)
  | super id keyword method => exact phrased.quiet (quiet_lookUpSuper c m _ _)
  | assign id name value =>
    exact phrased.evaluating (part _ (List.mem_singleton_self _))
      (known id name value (.itself _))
  | unary _ _ right | get _ right _ =>
    exact phrased.evaluating (part _ (List.mem_singleton_self _)) True.intro
  | binary _ left _ right | logical _ left _ right =>
    obtain ⟨first, second⟩ := List.forall_mem_cons.mp part
    exact phrased.evaluating first (second _ (List.mem_singleton_self _))
  | grouping _ inner => exact phrased.idle rfl (part _ (List.mem_singleton_self _))
  | call _ callee paren arguments =>
    obtain ⟨first, others⟩ := List.forall_mem_cons.mp part
    exact phrased.evaluating first others
  | set _ object _ value =>
    obtain ⟨second, first⟩ := List.forall_mem_cons.mp part
    exact phrased.evaluating (first _ (List.mem_singleton_self _)) second

theorem Phrased.execute (phrased : m.Phrased w) {s : Stmt} (written : w.Written s) :
    (execute m s).Phrased w := by
  have own : ∀ e ∈ s.exprs, e.Phrased w := fun e member => written.phrased member
  cases s with
  | expression _ e | print _ e | branch _ e _ _ =>
    exact phrased.evaluating (own _ (List.mem_singleton_self _)) True.intro
  | loop _ condition body =>
    have tested := own _ (List.mem_singleton_self _)
    exact phrased.evaluating tested tested
  | var _ name initializer =>
    cases initializer with
    | none => exact phrased.idle rfl True.intro
    | some e => exact phrased.evaluating (own e (List.mem_singleton_self _)) True.intro
  | returns _ _ value =>
    cases value with
    | none => exact phrased.idle rfl True.intro
    | some e => exact phrased.evaluating (own e (List.mem_singleton_self _)) True.intro
  | block _ body =>
    refine phrased.rest [_, _] rfl ?_ True.intro
    exact List.forall_mem_cons.mpr ⟨True.intro, List.forall_mem_singleton.mpr True.intro⟩
  | function decl => exact phrased.idle rfl True.intro
  | classDecl _ name superclass methods =>
    cases superclass with
    | none => exact phrased.quiet (quiet_defineClass m name none methods)
    | some use => exact phrased.evaluating (Expr.phrased_read w use) True.intro

theorem Phrased.resume (phrased : m.Phrased w) (a : Value) {frame : Frame}
    (waits : frame.Phrased w) : (resume c m a frame).Phrased w := by
  cases frame with
  | assign id name => exact phrased.quiet (quiet_assignTo c m id name a)
  | operand _ | rightOperand _ _ _ _ => exact phrased.quiet (quiet_giveResult m _)
  | leftOperand _ _ right => exact phrased.evaluating waits True.intro
  | shortcut operator right =>
    rw [Machine.resume]
    split
    · exact phrased.idle rfl True.intro
    · exact phrased.idle rfl waits
  | callee callee paren arguments => exact phrased.supply a callee paren [] waits
  | argument v callee paren given rest => exact phrased.supply v callee paren (a :: given) waits
  | property name => exact phrased.quiet (quiet_readProperty m name a)
  | target name value =>
    cases a with
    | object o => exact phrased.evaluating waits True.intro
    | _ => exact phrased.idle rfl True.intro
  | choose yes no =>
    cases no with
    | none | some s =>
      rw [Machine.resume]
      split <;> exact phrased.idle rfl True.intro
  | test condition body =>
    rw [Machine.resume]
    split
    · exact phrased.rest [_] rfl (List.forall_mem_singleton.mpr waits) True.intro
    · exact phrased.idle rfl True.intro
  | heritage superclass name methods =>
    cases a with
    | cls base => exact phrased.quiet (quiet_defineClass m name (some base) methods)
    | _ => exact phrased.idle rfl True.intro
  | field _ _ | discard | print | define _ | giveBack | construct _ =>
    exact phrased.idle rfl True.intro
  | again _ _ | sequence _ | leaveBlock _ | leaveCall _ _ => exact phrased

theorem Phrased.proceed (phrased : m.Phrased w) {frame : Frame} (waits : frame.Phrased w) :
    (proceed m frame).Phrased w := by
  cases frame with
  | again condition body => exact phrased.evaluating waits waits
  | sequence statements =>
    cases statements with
    | nil => exact phrased
    | cons s rest =>
      exact phrased.rest [_] rfl (List.forall_mem_singleton.mpr True.intro) True.intro
  | leaveCall scope initialized => exact phrased.leaveCall scope initialized .nil
  | _ => exact phrased.idle rfl phrased.control

theorem Phrased.passReturn (phrased : m.Phrased w) (a : Value) (frame : Frame) :
    (passReturn m a frame).Phrased w := by
  cases frame with
  | leaveCall scope initialized => exact phrased.leaveCall scope initialized a
  | _ => exact phrased.idle rfl phrased.control

theorem Phrased.passFailure (phrased : m.Phrased w) (frame : Frame) :
    (passFailure m frame).Phrased w := by
  cases frame <;> exact phrased.idle rfl phrased.control

theorem Phrased.step (phrased : m.Phrased w)
    (written : ∀ s, m.control = .execute s → w.Written s) : (step c m).Phrased w := by
  obtain ⟨control, frames, scope, depth, store, printed, classes⟩ := m
  have taken : ∀ {frame rest}, frames = frame :: rest → frame.Phrased w ∧
      Phrased w ⟨control, rest, scope, depth, store, printed, classes⟩ := by
    rintro frame rest rfl
    obtain ⟨first, others⟩ := List.forall_mem_cons.mp phrased.frames
    exact ⟨first, phrased.control, others⟩
  cases control with
  | evaluate e => exact phrased.evaluate phrased.control
  | execute s => exact phrased.execute (written s rfl)
  | value a =>
    cases frames with
    | nil => exact phrased
    | cons frame rest => exact (taken rfl).2.resume a (taken rfl).1
  | done =>
    cases frames with
    | nil => exact phrased
    | cons frame rest => exact (taken rfl).2.proceed (taken rfl).1
  | returning a =>
    cases frames with
    | nil => exact phrased
    | cons frame rest => exact (taken rfl).2.passReturn a frame
  | failing g =>
    cases frames with
    | nil => exact phrased
    | cons frame rest => exact (taken rfl).2.passFailure frame

theorem Phrased.run (phrased : m.Phrased w) (n : Nat)
    (written : ∀ j < n, ∀ s, (run c j m).control = .execute s → w.Written s) :
    (run c n m).Phrased w := by
  induction n with
  | zero => exact phrased
  | succ n ih =>
    rw [run_succ]
    have before := ih fun j early => written j (Nat.lt_succ_of_lt early)
    exact before.step (written n (Nat.lt_succ_self n))

end Machine

end LoxMachine
