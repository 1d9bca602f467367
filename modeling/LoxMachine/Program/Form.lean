import LoxMachine.Program.Basic
import LoxMachine.Number.Notation

namespace LoxMachine

def parenthesized (words : List String) : String := "(" ++ " ".intercalate words ++ ")"

namespace Literal

/-- A literal as it could be written; a string keeps its quotes and a zero its sign. -/
def form : Literal → String
  | nil => "nil"
  | bool b => if b then "true" else "false"
  | string s => "\"" ++ s ++ "\""
  | number n => n.fixed

end Literal

namespace Expr

mutual

def form : Expr → String
  | literal _ value => value.form
  | read use => use.name.lexeme
  | assign _ name value => parenthesized ["=", name.lexeme, value.form]
  | unary _ operator right => parenthesized [operator.lexeme, right.form]
  | binary _ left operator right | logical _ left operator right =>
    parenthesized [operator.lexeme, left.form, right.form]
  | grouping _ inner => parenthesized ["group", inner.form]
  | call _ callee _ arguments => parenthesized ("call" :: callee.form :: forms arguments)
  | get _ object name => parenthesized [".", object.form, name.lexeme]
  | set _ object name value =>
    parenthesized ["=", parenthesized [".", object.form, name.lexeme], value.form]
  | this _ _ => "this"
  | super _ _ method => parenthesized [".", "super", method.lexeme]

def forms : List Expr → List String
  | [] => []
  | e :: rest => e.form :: forms rest

end

end Expr

namespace Stmt

mutual

def form : Stmt → String
  | expression _ e => parenthesized [";", e.form]
  | print _ e => parenthesized ["print", e.form]
  | var _ name none => parenthesized ["var", name.lexeme]
  | var _ name (some e) => parenthesized ["var", name.lexeme, "=", e.form]
  | block _ body => parenthesized ("block" :: forms body)
  | branch _ condition yes none => parenthesized ["if", condition.form, yes.form]
  | branch _ condition yes (some no) =>
    parenthesized ["if-else", condition.form, yes.form, no.form]
  | loop _ condition body => parenthesized ["while", condition.form, body.form]
  | function decl => functionForm decl
  | returns _ _ none => "(return)"
  | returns _ _ (some e) => parenthesized ["return", e.form]
  | classDecl _ name superclass methods =>
    let heritage := match superclass with
      | some s => ["<", s.name.lexeme]
      | none => []
    parenthesized ("class" :: name.lexeme :: heritage ++ functionForms methods)

def forms : List Stmt → List String
  | [] => []
  | s :: rest => s.form :: forms rest

def functionForm : FunctionDecl → String
  | .mk _ name params body =>
    parenthesized
      ("fun" :: name.lexeme :: parenthesized (params.map (·.lexeme)) :: forms body)

def functionForms : List FunctionDecl → List String
  | [] => []
  | f :: rest => functionForm f :: functionForms rest

end

end Stmt

end LoxMachine
