import LoxMachine.Machine.Outcome
import LoxMachine.Program.Form
import LoxMachine.Scope.Static
import LoxMachine.Text.Quoted

namespace LoxMachine.Shell

def listedLiteral : Kind → String
  | .string contents => Text.quoted contents
  | .number n => "Decimal('" ++ n.scientific ++ "')"
  | .symbol _ | .keyword _ | .identifier | .endOfInput => "None"

def listedToken (t : Token) : String :=
  "Token(" ++ ", ".intercalate
    [t.kind.label, Text.quoted t.lexeme, listedLiteral t.kind, s!"line={t.line}"] ++ ")"

def beginning (tokens : List Token) (first : List Stmt) : String :=
  linesText (["", "Tokens:", "", Text.bracketed (tokens.map listedToken), "", "AST:", ""]
    ++ first.map (·.form))

def listing (tokens : List Token) (program : List Stmt) : String :=
  beginning tokens program ++ linesText [" "]

def scannedLog (tokens : List Token) : String :=
  s!"DEBUG:loxlang.lexer:Scanned {tokens.length} tokens"

def parsedLog (file : String) (program : List Stmt) : String :=
  s!"DEBUG:loxlang.parser.parser:Parsed {program.length} top-level statements from {file}"

def resolvedLog (file : String) (distances : Distances) : String :=
  s!"DEBUG:loxlang.resolver:Resolved {distances.length} local bindings in {file}"

def classLog (entry : String × Nat) : String :=
  s!"DEBUG:loxlang.interpreter:Defined class {entry.1} with {entry.2} methods"

end LoxMachine.Shell
