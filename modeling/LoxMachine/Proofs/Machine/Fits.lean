import LoxMachine.Machine.Step
import LoxMachine.Proofs.Value.Fits

namespace LoxMachine

open Static

def Static.Site.Announced (p : Site) : Prop :=
  ∀ name, p.pending = some name → ∀ level ∈ p.levels.head?, level.table.get? name = some .declared

inductive Demand where
  | value (p : Site)
  | completion (context : Context) (levels : List Level)

namespace Demand

def place : Demand → Site
  | value p => p
  | completion context levels => ⟨context, levels, none⟩

end Demand

namespace Frame

/-- A frame inside an expression that stands at the place. -/
def InExpr (w : World) (p : Site) : Frame → Prop
  | assign id name => name.Ordinary ∧ w.occurs (.use id name p.levels)
  | leftOperand _ _ right | shortcut _ right => right.Fits w.occurs p
  | callee _ _ arguments => ExprsFit w.occurs p arguments
  | argument calleeValue _ _ given arguments =>
    calleeValue.Fits w ∧ (∀ a ∈ given, a.Fits w) ∧ ExprsFit w.occurs p arguments
  | target _ value => value.Fits w.occurs p
  | field object _ | construct object => object.cls.Fits w
  | operand _ | rightOperand _ _ _ _ | property _ => True
  | discard | print | define _ | choose _ _ | test _ _ | again _ _ | giveBack | heritage _ _ _
  | sequence _ | leaveBlock _ | leaveCall _ _ => False

/-- A frame of a statement that declares nothing and waits for the value of an expression. -/
def InStmt (w : World) (context : Context) (levels : List Level) : Frame → Prop
  | discard | print => True
  | choose yes none => yes.Fits w.occurs context levels ∧ yes.declared = []
  | choose yes (some no) =>
    (yes.Fits w.occurs context levels ∧ yes.declared = [])
      ∧ no.Fits w.occurs context levels ∧ no.declared = []
  | test condition body =>
    condition.Fits w.occurs ⟨context, levels, none⟩ ∧ body.Fits w.occurs context levels
      ∧ body.declared = []
  | giveBack => context.function ≠ .topLevel
  | assign _ _ | operand _ | leftOperand _ _ _ | rightOperand _ _ _ _ | shortcut _ _
  | callee _ _ _ | argument _ _ _ _ _ | property _ | target _ _ | field _ _ | construct _
  | define _ | again _ _ | heritage _ _ _ | sequence _ | leaveBlock _ | leaveCall _ _ => False

end Frame

/-- Frames that fit what they wait for and the current scope. -/
inductive FramesFit (w : World) : Demand → ScopeId → List Frame → Prop
  | nil : FramesFit w (.completion ⟨.topLevel, .outside⟩ []) Store.globals []
  | expression {p e frame rest} (announced : p.Announced) (fits : frame.InExpr w p)
      (others : FramesFit w (.value p) e rest) : FramesFit w (.value p) e (frame :: rest)
  | statement {context levels e frame rest} (fits : frame.InStmt w context levels)
      (others : FramesFit w (.completion context levels) e rest) :
      FramesFit w (.value ⟨context, levels, none⟩) e (frame :: rest)
  | define {context levels e name rest} (declarable : Declarable levels name)
      (others : FramesFit w (.completion context (add levels name)) e rest) :
      FramesFit w (.value ⟨context, announce levels name, some name.lexeme⟩) e (.define name :: rest)
  | heritage {context levels e superclass name methods rest} (declarable : Declarable levels name)
      (fit : MethodsFit w.occurs .derived (heritageLevel :: add levels name) methods)
      (others : FramesFit w (.completion context (add levels name)) e rest) :
      FramesFit w (.value ⟨context, add levels name, some name.lexeme⟩) e
        (.heritage superclass name methods :: rest)
  | again {context levels e condition body rest}
      (condition_fits : condition.Fits w.occurs ⟨context, levels, none⟩)
      (body_fits : body.Fits w.occurs context levels) (silent : body.declared = [])
      (others : FramesFit w (.completion context levels) e rest) :
      FramesFit w (.completion context levels) e (.again condition body :: rest)
  | sequence {context levels e body rest} (fit : StmtsFit w.occurs context levels body)
      (others : FramesFit w (.completion context (addAll levels (body.flatMap Stmt.declared))) e
        rest) :
      FramesFit w (.completion context levels) e (.sequence body :: rest)
  | leaveBlock {context levels outer e around rest} (mirrors : w.Mirrors none around outer)
      (others : FramesFit w (.completion context outer) around rest) :
      FramesFit w (.completion context levels) e (.leaveBlock around :: rest)
  | leaveCall {context levels p e caller initialized rest}
      (mirrors : w.Mirrors p.pending caller p.levels)
      (object : ∀ own, initialized = some own → w.forest.contains own "this" = true)
      (others : FramesFit w (.value p) caller rest) :
      FramesFit w (.completion context levels) e (.leaveCall caller initialized :: rest)

/-- A failure that is the program's own, that of a function of the host, or a limit's. -/
def Failure.Admissible : Failure → Prop
  | .complaint _ _ | .host _ _ _ | .overflow | .callDepth => True
  | .scope _ | .noDistance _ | .superNotClass => False

namespace Machine

abbrev world (m : Machine) (G : Occurrence → Prop) (shape : List Origin) : World :=
  m.store.world G shape

structure Expects (G : Occurrence → Prop) (shape : List Origin) (demand : Demand) (m : Machine) :
    Prop where
  store : m.store.Fits G shape
  frames : FramesFit (m.world G shape) demand m.scope m.frames

def Stands (G : Occurrence → Prop) (shape : List Origin) (p : Site) (m : Machine) : Prop :=
  (m.world G shape).Mirrors p.pending m.scope p.levels

def ReadsHeritage (p : Site) (e : Expr) (frames : List Frame) : Prop :=
  ∃ use superclass name methods rest, e = .read use ∧ p.pending = some name.lexeme ∧
    frames = .heritage superclass name methods :: rest

/-- A state that fits the occurrences of the programs at hand. -/
inductive Fits (G : Occurrence → Prop) (shape : List Origin) (m : Machine) : Prop
  | evaluate {e} (p : Site) (control : m.control = .evaluate e)
      (expects : m.Expects G shape (.value p)) (stands : m.Stands G shape p) (fits : e.Fits G p)
      (awaited : p.Announced ∨ ReadsHeritage p e m.frames)
  | execute {s} (context : Context) (levels : List Level) (control : m.control = .execute s)
      (expects : m.Expects G shape (.completion context (addAll levels s.declared)))
      (stands : m.Stands G shape ⟨context, levels, none⟩) (fits : s.Fits G context levels)
  | value {a} (p : Site) (control : m.control = .value a)
      (expects : m.Expects G shape (.value p)) (stands : m.Stands G shape p)
      (fits : a.Fits (m.world G shape))
  | done (context : Context) (levels : List Level) (control : m.control = .done)
      (expects : m.Expects G shape (.completion context levels))
      (stands : m.Stands G shape ⟨context, levels, none⟩)
  | returning {a} (context : Context) (levels : List Level) (control : m.control = .returning a)
      (expects : m.Expects G shape (.completion context levels))
      (inside : context.function ≠ .topLevel) (fits : a.Fits (m.world G shape))
  | failing {f} (demand : Demand) (control : m.control = .failing f)
      (expects : m.Expects G shape demand) (admissible : f.Admissible)

theorem Fits.store {G : Occurrence → Prop} {shape : List Origin} {m : Machine}
    (fits : m.Fits G shape) : m.store.Fits G shape := by
  cases fits with
  | evaluate _ _ expects | execute _ _ _ expects | value _ _ expects | done _ _ _ expects
  | returning _ _ _ expects | failing _ _ expects => exact expects.store

end Machine

section Extends

variable {w v : World} (grown : w.Extends v)

include grown

theorem Frame.InExpr.later {p : Site} {frame : Frame} (fits : frame.InExpr w p) :
    frame.InExpr v p := by
  cases frame with
  | assign id name => exact ⟨fits.1, grown.occurs _ fits.2⟩
  | leftOperand left operator right => exact Expr.Fits.mono (e := right) grown.occurs fits
  | shortcut operator right => exact Expr.Fits.mono (e := right) grown.occurs fits
  | callee callee paren arguments => exact ExprsFit.mono grown.occurs fits
  | argument calleeValue callee paren given arguments =>
    exact ⟨fits.1.later grown, fun a member => (fits.2.1 a member).later grown,
      fits.2.2.mono grown.occurs⟩
  | target name value => exact Expr.Fits.mono (e := value) grown.occurs fits
  | field object name => exact Class.Fits.later grown (c := object.cls) fits
  | construct object => exact Class.Fits.later grown (c := object.cls) fits
  | operand _ | rightOperand _ _ _ _ | property _ => exact True.intro
  | discard | print | define _ | choose _ _ | test _ _ | again _ _ | giveBack | heritage _ _ _
  | sequence _ | leaveBlock _ | leaveCall _ _ => exact fits

theorem Frame.InStmt.later {context : Context} {levels : List Level} {frame : Frame}
    (fits : frame.InStmt w context levels) : frame.InStmt v context levels := by
  cases frame with
  | choose yes no =>
    cases no with
    | none => exact ⟨fits.1.mono grown.occurs, fits.2⟩
    | some no =>
      exact ⟨⟨fits.1.1.mono grown.occurs, fits.1.2⟩, fits.2.1.mono grown.occurs, fits.2.2⟩
  | test condition body =>
    exact ⟨fits.1.mono grown.occurs, fits.2.1.mono grown.occurs, fits.2.2⟩
  | discard | print | giveBack => exact fits
  | _ => exact fits

theorem FramesFit.later {demand : Demand} {e : ScopeId} {frames : List Frame}
    (fit : FramesFit w demand e frames) : FramesFit v demand e frames := by
  induction fit with
  | nil => exact .nil
  | expression announced fits _ ih => exact .expression announced (fits.later grown) ih
  | statement fits _ ih => exact .statement (fits.later grown) ih
  | define declarable _ ih => exact .define declarable ih
  | heritage declarable fit _ ih => exact .heritage declarable (fit.mono grown.occurs) ih
  | again condition body silent _ ih =>
    exact .again (condition.mono grown.occurs) (body.mono grown.occurs) silent ih
  | sequence fit _ ih => exact .sequence (fit.mono grown.occurs) ih
  | leaveBlock mirrors _ ih => exact .leaveBlock (mirrors.later grown) ih
  | leaveCall mirrors object _ ih =>
    exact .leaveCall (mirrors.later grown)
      (fun own same => grown.forest.contains own "this" (object own same)) ih

end Extends

end LoxMachine
