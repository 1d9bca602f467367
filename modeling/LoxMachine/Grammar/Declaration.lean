import LoxMachine.Grammar.Term

namespace LoxMachine.Grammar

open Reader

def expressionStatement : Reader Stmt := do
  let e ← expression
  let _ ← expect .semicolon .afterExpression
  node (.expression · e)

def varDeclaration : Reader Stmt := do
  let name ← expectName .variable
  let initializer ← if ← accept .equal then some <$> expression else pure none
  let _ ← expect .semicolon .afterVariable
  node (.var · name initializer)

def block (declaration : Reader Stmt) : Reader (List Stmt) := do
  let body ← many (fun t => !t.isSymbol .rightBrace && !t.isEnding) declaration
  let _ ← expect .rightBrace .afterBlock
  return body

def function (declaration : Reader Stmt) (sort : FunctionSort) : Reader FunctionDecl := do
  let name ← expectName (.callable sort)
  let _ ← expect .leftParen (.afterFunctionName sort)
  let params ← separatedBefore .rightParen (expectName .parameter)
  let _ ← expect .rightParen .afterParameters
  let _ ← expect .leftBrace (.beforeFunctionBody sort)
  let body ← block declaration
  node (.mk · name params body)

def classDeclaration (declaration : Reader Stmt) : Reader Stmt := do
  let name ← expectName .classDecl
  let superclass ←
    if ← accept .less then
      let superName ← expectName .superclass
      some <$> node (Variable.mk · superName)
    else pure none
  let _ ← expect .leftBrace .beforeClassBody
  let methods ← many (fun t => !t.isSymbol .rightBrace && !t.isEnding) (function declaration .method)
  let _ ← expect .rightBrace .afterClassBody
  node (.classDecl · name superclass methods)

def forInitializer : Reader (Option Stmt) := do
  if ← accept .semicolon then return none
  else if ← acceptWord .varWord then some <$> varDeclaration
  else some <$> expressionStatement

def forLoopOf (initializer : Option Stmt) (condition increment : Option Expr) (body : Stmt) :
    Reader Stmt := do
  let body ← match increment with
    | none => pure body
    | some e =>
      let step ← node (.expression · e)
      node (.block · [body, step])
  let condition ← match condition with
    | some e => pure e
    | none => node (.literal · (.bool true))
  let loop ← node (.loop · condition body)
  match initializer with
  | none => return loop
  | some s => node (.block · [s, loop])

def forLoop (statement : Reader Stmt) : Reader Stmt := do
  let _ ← expect .leftParen .afterFor
  let initializer ← forInitializer
  let condition ← optionalBefore .semicolon expression
  let _ ← expect .semicolon .afterLoopCondition
  let increment ← optionalBefore .rightParen expression
  let _ ← expect .rightParen .afterForClauses
  let body ← statement
  forLoopOf initializer condition increment body

def conditional (statement : Reader Stmt) : Reader Stmt := do
  let _ ← expect .leftParen .afterIf
  let condition ← expression
  let _ ← expect .rightParen .afterIfCondition
  let yes ← statement
  let no ← if ← acceptWord .elseWord then some <$> statement else pure none
  node (.branch · condition yes no)

def whileLoop (statement : Reader Stmt) : Reader Stmt := do
  let _ ← expect .leftParen .afterWhile
  let condition ← expression
  let _ ← expect .rightParen .afterWhileCondition
  let body ← statement
  node (.loop · condition body)

def printStatement : Reader Stmt := do
  let e ← expression
  let _ ← expect .semicolon .afterPrinted
  node (.print · e)

def returnStatement (keyword : Token) : Reader Stmt := do
  let value ← optionalBefore .semicolon expression
  let _ ← expect .semicolon .afterReturned
  node (.returns · keyword value)

def statementOver (declaration statement : Reader Stmt) : Reader Stmt := do
  let t ← current
  match t.kind with
  | .keyword .forWord => let _ ← take; forLoop statement
  | .keyword .ifWord => let _ ← take; conditional statement
  | .keyword .printWord => let _ ← take; printStatement
  | .keyword .returnWord => let _ ← take; returnStatement t
  | .keyword .whileWord => let _ ← take; whileLoop statement
  | .symbol .leftBrace =>
    let _ ← take
    let body ← block declaration
    node (.block · body)
  | _ => expressionStatement

def declarationOver (declaration statement : Reader Stmt) : Reader Stmt := do
  let t ← current
  match t.kind with
  | .keyword .classWord => let _ ← take; classDeclaration declaration
  | .keyword .funWord => let _ ← take; .function <$> function declaration .function
  | .keyword .varWord => let _ ← take; varDeclaration
  | _ => statementOver declaration statement

mutual

def declarationWithin : Nat → Reader Stmt
  | 0, c => .error .nesting c
  | n + 1, c => declarationOver (fun c => declarationWithin n c) (fun c => statementWithin n c) c

def statementWithin : Nat → Reader Stmt
  | 0, c => .error .nesting c
  | n + 1, c => statementOver (fun c => declarationWithin n c) (fun c => statementWithin n c) c

end

/-- A declaration or a statement; it nests at most as deep as there are tokens left. -/
def declaration : Reader Stmt := fun c => declarationWithin (c.rest.length + 1) c

def program : Reader (List Stmt) := many (!·.isEnding) declaration

end LoxMachine.Grammar

namespace LoxMachine

/--
The program that a list of tokens spells, its nodes numbered from `firstId` on, or the first error;
and the place where the reading stopped.
-/
def parse (firstId : NodeId) (tokens : List Token) : Except SyntaxError (List Stmt) × Cursor :=
  match Grammar.program ⟨tokens, firstId⟩ with
  | .ok body c => (.ok body, c)
  | .error e c => (.error e, c)

end LoxMachine
