import LoxMachine.Value.Basic

namespace LoxMachine

inductive Complaint where
  | undefinedVariable (name : String)
  | negatedNonNumber (operand : String)
  | operandKinds (left operator right : String)
  | divisionByZero (form : String)
  | unknownOperator (lexeme : String)
  | notCallable (form text : String)
  | argumentCount (expected got : Nat)
  | noProperties
  | noFields
  | undefinedProperty (name : String)
  | superclassNotClass
deriving DecidableEq

def Complaint.text : Complaint → String
  | undefinedVariable name => s!"Undefined variable '{name}'"
  | negatedNonNumber operand => s!"Operand must be a number for unary '-': {operand}"
  | operandKinds left operator right =>
    s!"Unsupported types for binary operation: {left} {operator} {right}"
  | divisionByZero form => s!"Division by zero. {form}"
  | unknownOperator lexeme => s!"Unknown binary operator '{lexeme}'"
  | notCallable form text => s!"Can only call functions and classes. {form} is {text}"
  | argumentCount expected got => s!"Expected {expected} arguments but got {got}."
  | noProperties => "Only instances have properties."
  | noFields => "Only instances have fields."
  | undefinedProperty name => s!"Undefined property '{name}'."
  | superclassNotClass => "Superclass must be a class."

/-- A text with the line and the file that it is about, as far as they are known. -/
def located (text : String) (line : Option Int) (file : Option String) : String :=
  let line := match line with
    | some n => s!" on line {n}"
    | none => ""
  let file := match file with
    | some name => s!" in {name}"
    | none => ""
  text ++ line ++ file

/-- Why a run stops early. -/
inductive Failure where
  | complaint (complaint : Complaint) (line : Nat)
  | host (text : String) (line : Option Int) (file : Option String)
  | overflow
  | callDepth
  /-- A distance leads out of the scopes or to one without the name. -/
  | scope (error : ScopeError)
  /-- A use of `super` has no distance. -/
  | noDistance (id : NodeId)
  | superNotClass
deriving DecidableEq

def Failure.against (t : Token) (c : Complaint) : Failure := .complaint c t.line

def Failure.message? (file : String) : Failure → Option String
  | complaint c line => some (located c.text (some line) (some file))
  | host text line file => some (located text line file)
  | overflow | callDepth | scope _ | noDistance _ | superNotClass => none

end LoxMachine
