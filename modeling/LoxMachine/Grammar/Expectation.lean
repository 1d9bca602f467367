import LoxMachine.Token.Basic

namespace LoxMachine

inductive FunctionSort where
  | function | method
deriving DecidableEq

inductive NameRole where
  | property | superclassMethod | classDecl | superclass | parameter | variable
  | callable (sort : FunctionSort)
deriving DecidableEq

inductive Place where
  | afterArguments | afterSuper | afterGroup | beforeClassBody | afterClassBody
  | afterFunctionName (sort : FunctionSort) | afterParameters | beforeFunctionBody (sort : FunctionSort)
  | afterVariable | afterBlock | afterFor | afterLoopCondition | afterForClauses
  | afterIf | afterIfCondition | afterPrinted | afterReturned | afterWhile | afterWhileCondition
  | afterExpression
deriving DecidableEq

/-- What the grammar wants and does not find. -/
inductive Expectation where
  | expression
  | assignmentTarget
  | name (role : NameRole)
  | symbol (symbol : Symbol) (place : Place)
deriving DecidableEq

/-- The first thing wrong with a list of tokens. -/
inductive SyntaxError where
  | unexpected (expected : Expectation) (found : Token)
  /-- The phrases nest deeper than the reader was set up for. -/
  | nesting
deriving DecidableEq

def FunctionSort.text : FunctionSort → String
  | function => "function"
  | method => "method"

def NameRole.text : NameRole → String
  | property => "property name after '.'"
  | superclassMethod => "superclass method name"
  | classDecl => "class name"
  | superclass => "superclass name"
  | parameter => "parameter name"
  | «variable» => "variable name"
  | callable sort => sort.text ++ " name"

def Place.text : Place → String
  | afterArguments => "after arguments"
  | afterSuper => "after 'super'"
  | afterGroup => "after expression"
  | beforeClassBody => "before class body"
  | afterClassBody => "after class body"
  | afterFunctionName sort => "after " ++ sort.text ++ " name"
  | afterParameters => "after parameters"
  | beforeFunctionBody sort => "before " ++ sort.text ++ " body"
  | afterVariable => "after variable declaration"
  | afterBlock => "after block"
  | afterFor => "after 'for'"
  | afterLoopCondition => "after loop condition"
  | afterForClauses => "after for clauses"
  | afterIf => "after 'if'"
  | afterIfCondition => "after if condition"
  | afterPrinted => "after value"
  | afterReturned => "after return value"
  | afterWhile => "after 'while'"
  | afterWhileCondition => "after condition"
  | afterExpression => "after expression"

def Expectation.text : Expectation → String
  | expression => "Expect expression."
  | assignmentTarget => "Invalid assignment target."
  | name role => "Expect " ++ role.text ++ "."
  | symbol s place => "Expect '" ++ s.spelling ++ "' " ++ place.text ++ "."

namespace SyntaxError

def foundText (t : Token) : String :=
  if t.isEnding then "end of input" else "'" ++ t.lexeme ++ "'"

def message (file : String) : SyntaxError → String
  | unexpected expected found =>
    s!"{expected.text} Got {foundText found} on line {found.line} in {file}"
  | nesting => s!"Nested too deeply in {file}"

end SyntaxError

end LoxMachine
