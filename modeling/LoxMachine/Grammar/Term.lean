import LoxMachine.Grammar.Operators

namespace LoxMachine.Grammar

open Reader

def suffix (nested : Reader Expr) (target : Expr) : Reader Expr := do
  let opening ← take
  if opening.isSymbol .leftParen then
    let arguments ← separatedBefore .rightParen nested
    let paren ← expect .rightParen .afterArguments
    node (.call · target paren arguments)
  else
    let name ← expectName .property
    node (.get · target name)

def primary (nested : Reader Expr) : Reader Expr := do
  let t ← current
  match t.kind with
  | .keyword .falseWord => let _ ← take; node (.literal · (.bool false))
  | .keyword .trueWord => let _ ← take; node (.literal · (.bool true))
  | .keyword .nilWord => let _ ← take; node (.literal · .nil)
  | .number n => let _ ← take; node (.literal · (.number n))
  | .string s => let _ ← take; node (.literal · (.string s))
  | .keyword .superWord =>
    let _ ← take
    let _ ← expect .dot .afterSuper
    let method ← expectName .superclassMethod
    node (.super · t method)
  | .keyword .thisWord => let _ ← take; node (.this · t)
  | .identifier => let _ ← take; node fun id => .read ⟨id, t⟩
  | .symbol .leftParen =>
    let _ ← take
    let inner ← nested
    let _ ← expect .rightParen .afterGroup
    node (.grouping · inner)
  | _ => unexpected .expression t

def chain (nested : Reader Expr) : Reader Expr := do
  let first ← primary nested
  repeatWhile (fun t => t.isSymbol .leftParen || t.isSymbol .dot) (suffix nested) first

def isPrefixOperator (t : Token) : Bool := t.isSymbol .bang || t.isSymbol .minus

/-- A chain with prefix operators in front; the last operator applies first. -/
def unary (nested : Reader Expr) : Reader Expr := do
  let operators ← many isPrefixOperator take
  let operand ← chain nested
  operators.reverse.foldlM (fun right operator => node (.unary · operator right)) operand

/--
An expression: an operator expression, or an assignment to a name or a property. What stands left
of `=` is read as an ordinary expression first and only then checked.
-/
def assignment (nested : Reader Expr) : Reader Expr := do
  let target ← operatorsOver (unary nested)
  let t ← current
  if t.isSymbol .equal then
    let _ ← take
    let value ← nested
    match target with
    | .read use => node (.assign · use.name value)
    | .get _ object name => node (.set · object name value)
    | _ => unexpected .assignmentTarget t
  else return target

def expressionWithin : Nat → Reader Expr
  | 0, c => .error .nesting c
  | n + 1, c => assignment (fun c => expressionWithin n c) c

def expression : Reader Expr := fun c => expressionWithin (c.rest.length + 1) c

end LoxMachine.Grammar
