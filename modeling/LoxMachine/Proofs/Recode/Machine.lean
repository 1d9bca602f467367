import LoxMachine.Machine.Step
import LoxMachine.Proofs.Recode.Store

namespace LoxMachine

open Static

/-- New names that leave every use with its declaration. -/
structure Recoding.Respects (ϕ : Recoding) (G : Occurrence → Prop) : Prop where
  near : ∀ i name levels, G (.use i name levels) →
    ∀ (d : Nat) (level : Level), levels[d]? = some level →
    (∀ k < d, ∀ inner : Level, levels[k]? = some inner → inner.table.contains name.lexeme = false) →
    (level.table.recode (ϕ.bound level.origin) id).get? (ϕ.use i name).lexeme =
      level.table.get? name.lexeme
  found : ∀ i name levels d level, G (.use i name levels) → locate levels name.lexeme = some d →
    levels[d]? = some level → (ϕ.use i name).lexeme = ϕ.bound level.origin name.lexeme
  missing : ∀ i name levels, G (.use i name levels) → locate levels name.lexeme = none →
    (ϕ.use i name).lexeme = name.lexeme
  declared : ∀ i name levels, G (.variable i name levels) →
    (ϕ.declare i name).lexeme = ϕ.bound (originOf levels) name.lexeme
  parameter : ∀ i name levels, G (.parameter i name levels) →
    (ϕ.declare i name).lexeme = ϕ.bound (originOf levels) name.lexeme
  callable : ∀ name levels, G (.callable name levels) →
    ϕ.bound (originOf levels) name.lexeme = name.lexeme

/-- The complaint of a recoded run may show an expression in its new form. -/
inductive Complaint.Recoded (ϕ : Respelling) : Complaint → Complaint → Prop
  | same (complaint : Complaint) : Recoded ϕ complaint complaint
  | division (e : Expr) : Recoded ϕ (.divisionByZero e.form) (.divisionByZero (e.recode ϕ).form)
  | callee (e : Expr) (text : String) :
    Recoded ϕ (.notCallable e.form text) (.notCallable (e.recode ϕ).form text)

section Recoded

variable (ϕ : Recoding) (G : Occurrence → Prop) (shape : List Origin)

/-- The failure of a recoded run points at the new token. -/
inductive Failure.Recoded : Failure → Failure → Prop
  | use {id name levels} (known : G (.use id name levels)) (complaint : Complaint) :
    Recoded (.against name complaint) (.against (ϕ.use id name) complaint)
  | mark {id t complaint other} (known : G (.mark id t)) (alike : Complaint.Recoded ϕ complaint other) :
    Recoded (.against t complaint) (.against (ϕ.mark id t) other)
  | host (text : String) (line : Option Int) (file : Option String) :
    Recoded (.host text line file) (.host text line file)
  | overflow : Recoded .overflow .overflow
  | callDepth : Recoded .callDepth .callDepth

inductive Control.Recoded : Control → Control → Prop
  | evaluate (e : Expr) : Recoded (.evaluate e) (.evaluate (e.recode ϕ))
  | execute (s : Stmt) : Recoded (.execute s) (.execute (s.recode ϕ))
  | value (a : Value) : Recoded (.value a) (.value (a.recode ϕ))
  | done : Recoded .done .done
  | returning (a : Value) : Recoded (.returning a) (.returning (a.recode ϕ))
  | failing {f other : Failure} (alike : f.Recoded ϕ G other) : Recoded (.failing f) (.failing other)

def NamedAlike (e : ScopeId) (name other : Token) : Prop :=
  ∃ origin, shape[e]? = some origin ∧ other.lexeme = ϕ.bound origin name.lexeme

/-- Frames of the scope `e` that wait for the same thing. -/
inductive Frame.Recoded (e : ScopeId) : Frame → Frame → Prop
  | assign (id : NodeId) (name : Token) : Recoded e (.assign id name) (.assign id (ϕ.use id name))
  | operand {id operator} (known : G (.mark id operator)) :
    Recoded e (.operand operator) (.operand (ϕ.mark id operator))
  | leftOperand {id operator} (known : G (.mark id operator)) (left right : Expr) :
    Recoded e (.leftOperand left operator right)
      (.leftOperand (left.recode ϕ) (ϕ.mark id operator) (right.recode ϕ))
  | rightOperand {id operator} (known : G (.mark id operator)) (a : Value) (left right : Expr) :
    Recoded e (.rightOperand a left operator right)
      (.rightOperand (a.recode ϕ) (left.recode ϕ) (ϕ.mark id operator) (right.recode ϕ))
  | shortcut (id : NodeId) (operator : Token) (right : Expr) :
    Recoded e (.shortcut operator right) (.shortcut (ϕ.mark id operator) (right.recode ϕ))
  | callee {id paren} (known : G (.mark id paren)) (callee : Expr) (arguments : List Expr) :
    Recoded e (.callee callee paren arguments)
      (.callee (callee.recode ϕ) (ϕ.mark id paren) (exprsRecode ϕ arguments))
  | argument {id paren} (known : G (.mark id paren)) (a : Value) (callee : Expr)
      (given : List Value) (arguments : List Expr) :
    Recoded e (.argument a callee paren given arguments)
      (.argument (a.recode ϕ) (callee.recode ϕ) (ϕ.mark id paren) (given.map (·.recode ϕ))
        (exprsRecode ϕ arguments))
  | property {id name} (known : G (.mark id name)) :
    Recoded e (.property name) (.property (ϕ.mark id name))
  | target {id name} (known : G (.mark id name)) (value : Expr) :
    Recoded e (.target name value) (.target (ϕ.mark id name) (value.recode ϕ))
  | field (id : NodeId) (object : Object) (name : Token) :
    Recoded e (.field object name) (.field (object.recode ϕ) (ϕ.mark id name))
  | discard : Recoded e .discard .discard
  | print : Recoded e .print .print
  | define {name other} (named : NamedAlike ϕ shape e name other) :
    Recoded e (.define name) (.define other)
  | choose (yes : Stmt) (no : Option Stmt) :
    Recoded e (.choose yes no) (.choose (yes.recode ϕ) (no.map (·.recode ϕ)))
  | test (condition : Expr) (body : Stmt) :
    Recoded e (.test condition body) (.test (condition.recode ϕ) (body.recode ϕ))
  | again (condition : Expr) (body : Stmt) :
    Recoded e (.again condition body) (.again (condition.recode ϕ) (body.recode ϕ))
  | giveBack : Recoded e .giveBack .giveBack
  | heritage {id superclass levels name other} (known : G (.use id superclass levels))
      (named : NamedAlike ϕ shape e name other) (same : other.lexeme = name.lexeme)
      (methods : List FunctionDecl) :
    Recoded e (.heritage superclass name methods)
      (.heritage (ϕ.use id superclass) other (methodsRecode ϕ methods))
  | sequence (body : List Stmt) : Recoded e (.sequence body) (.sequence (stmtsRecode ϕ body))
  | leaveBlock (scope : ScopeId) : Recoded e (.leaveBlock scope) (.leaveBlock scope)
  | leaveCall (scope : ScopeId) (initialized : Option ScopeId) :
    Recoded e (.leaveCall scope initialized) (.leaveCall scope initialized)
  | construct (object : Object) : Recoded e (.construct object) (.construct (object.recode ϕ))

def Frame.outside (e : ScopeId) : Frame → ScopeId
  | .leaveBlock scope | .leaveCall scope _ => scope
  | _ => e

/-- Frames that correspond, the last of them with further statements. -/
inductive FramesRecoded (further : List Stmt) : ScopeId → List Frame → List Frame → Prop
  | last {e} (body : List Stmt) :
    FramesRecoded further e [.sequence body] [.sequence (stmtsRecode ϕ body ++ further)]
  | cons {e frame other rest others} (first : frame.Recoded ϕ G shape e other)
      (later : FramesRecoded further (frame.outside e) rest others) :
    FramesRecoded further e (frame :: rest) (other :: others)

structure Record where
  printed : List String
  classes : List (String × Nat)

/-- States with the same scopes and corresponding stores. -/
structure Machine.Beside (before : Record) (m other : Machine) : Prop where
  scope : other.scope = m.scope
  depth : other.depth = m.depth
  store : other.store = m.store.recode ϕ shape
  discreet : m.store.Discreet
  printed : other.printed = m.printed ++ before.printed
  classes : other.classes = m.classes ++ before.classes

structure Machine.Parallel (further : List Stmt) (before : Record) (m other : Machine) : Prop
    extends Machine.Beside ϕ shape before m other where
  frames : FramesRecoded ϕ G shape further m.scope m.frames other.frames

/-- A state and its recoding, with something left to do or without. -/
inductive Machine.Recoded (further : List Stmt) (before : Record) (m other : Machine) : Prop
  | going (parallel : m.Parallel ϕ G shape further before other)
      (control : m.control.Recoded ϕ G other.control)
  | ended (beside : m.Beside ϕ shape before other) (halted : m.isOver = true)
      (left : m.frames = []) (right : other.frames = [])
      (control : m.control.Recoded ϕ G other.control) (final : m.control = .done → further = [])

end Recoded

section Later

variable {ϕ : Recoding} {G : Occurrence → Prop} {shape : List Origin} (added : List Origin)

theorem NamedAlike.later {e : ScopeId} {name other : Token} (named : NamedAlike ϕ shape e name other) :
    NamedAlike ϕ (shape ++ added) e name other := by
  obtain ⟨origin, opened, same⟩ := named
  exact ⟨origin, (List.getElem?_append_left (List.getElem?_eq_some_iff.mp opened).1).trans opened,
    same⟩

theorem Frame.Recoded.later {e : ScopeId} {frame other : Frame}
    (recoded : frame.Recoded ϕ G shape e other) : frame.Recoded ϕ G (shape ++ added) e other := by
  cases recoded with
  | define named => exact .define (named.later added)
  | heritage known named same methods => exact .heritage known (named.later added) same methods
  | assign id name => exact .assign id name
  | operand known => exact .operand known
  | leftOperand known left right => exact .leftOperand known left right
  | rightOperand known a left right => exact .rightOperand known a left right
  | shortcut id operator right => exact .shortcut id operator right
  | callee known callee arguments => exact .callee known callee arguments
  | argument known a callee given arguments => exact .argument known a callee given arguments
  | property known => exact .property known
  | target known value => exact .target known value
  | field id object name => exact .field id object name
  | discard => exact .discard
  | print => exact .print
  | choose yes no => exact .choose yes no
  | test condition body => exact .test condition body
  | again condition body => exact .again condition body
  | giveBack => exact .giveBack
  | sequence body => exact .sequence body
  | leaveBlock scope => exact .leaveBlock scope
  | leaveCall scope initialized => exact .leaveCall scope initialized
  | construct object => exact .construct object

theorem FramesRecoded.later {further : List Stmt} {e : ScopeId} {frames others : List Frame}
    (recoded : FramesRecoded ϕ G shape further e frames others) :
    FramesRecoded ϕ G (shape ++ added) further e frames others := by
  induction recoded with
  | last body => exact .last body
  | cons first _ ih => exact .cons (first.later added) ih

end Later

end LoxMachine
