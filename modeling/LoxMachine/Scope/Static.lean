import LoxMachine.Program.Basic
import LoxMachine.Scope.Table

namespace LoxMachine

abbrev Distances := List (NodeId × Int)

inductive StaticRule where
  | declaredTwice | ownInitializer
  | returnOutside | returnFromInitializer
  | thisOutside | superOutside | superWithoutSuperclass | selfInheritance
deriving DecidableEq

def StaticRule.text : StaticRule → String
  | declaredTwice => "Already a variable with this name in this scope."
  | ownInitializer => "Can't read local variable in its own initializer."
  | returnOutside => "Can't return from top-level code."
  | returnFromInitializer => "Can't return a value from an initializer."
  | thisOutside => "Can't use 'this' outside of a class."
  | superOutside => "Can't use 'super' outside of a class."
  | superWithoutSuperclass => "Can't use 'super' in a class with no superclass."
  | selfInheritance => "A class can't inherit from itself."

structure StaticError where
  rule : StaticRule
  token : Token
deriving DecidableEq

def StaticError.message (file : String) (e : StaticError) : String :=
  s!"Error at '{e.token.lexeme}': {e.rule.text} on line {e.token.line} in {file}"

namespace Static

/-- How far the declaration of a name has come: a name is declared before its initializer is read
and defined after it. -/
inductive Stage where
  | declared | defined
deriving DecidableEq

abbrev Scopes := List (Table Stage)

inductive FunctionContext where
  | topLevel | function | method | initializer
deriving DecidableEq

inductive ClassContext where
  | outside | plain | derived
deriving DecidableEq

structure Context where
  function : FunctionContext
  enclosingClass : ClassContext

def declare (scopes : Scopes) (name : Token) : Except StaticError Scopes :=
  match scopes with
  | [] => .ok []
  | innermost :: outer =>
    if innermost.contains name.lexeme then .error ⟨.declaredTwice, name⟩
    else .ok (innermost.put name.lexeme .declared :: outer)

def define (scopes : Scopes) (name : Token) : Scopes :=
  match scopes with
  | [] => []
  | innermost :: outer => innermost.put name.lexeme .defined :: outer

def introduce (scopes : Scopes) (name : Token) : Except StaticError Scopes := do
  return define (← declare scopes name) name

/-- The distance from the innermost scope to the first one that has the name, if there is one. -/
def distance (scopes : Scopes) (id : NodeId) (name : Token) : Distances :=
  match scopes.findIdx? (·.contains name.lexeme) with
  | some d => [(id, d)]
  | none => []

def readDistance (scopes : Scopes) (id : NodeId) (name : Token) : Except StaticError Distances :=
  match scopes with
  | innermost :: _ =>
    if innermost.get? name.lexeme = some .declared then .error ⟨.ownInitializer, name⟩
    else .ok (distance scopes id name)
  | [] => .ok []

mutual

def inExpr (context : Context) (scopes : Scopes) : Expr → Except StaticError Distances
  | .literal _ _ => .ok []
  | .read use => readDistance scopes use.id use.name
  | .assign id name value => do
    let inner ← inExpr context scopes value
    return inner ++ distance scopes id name
  | .unary _ _ right => inExpr context scopes right
  | .binary _ left _ right | .logical _ left _ right => do
    let first ← inExpr context scopes left
    let second ← inExpr context scopes right
    return first ++ second
  | .grouping _ inner => inExpr context scopes inner
  | .call _ callee _ arguments => do
    let first ← inExpr context scopes callee
    let others ← inExprs context scopes arguments
    return first ++ others
  | .get _ object _ => inExpr context scopes object
  | .set _ object _ value => do
    let first ← inExpr context scopes value
    let second ← inExpr context scopes object
    return first ++ second
  | .this id keyword =>
    if context.enclosingClass = .outside then .error ⟨.thisOutside, keyword⟩
    else readDistance scopes id keyword
  | .super id keyword _ =>
    match context.enclosingClass with
    | .outside => .error ⟨.superOutside, keyword⟩
    | .plain => .error ⟨.superWithoutSuperclass, keyword⟩
    | .derived => .ok (distance scopes id keyword)

def inExprs (context : Context) (scopes : Scopes) : List Expr → Except StaticError Distances
  | [] => .ok []
  | e :: rest => do
    let first ← inExpr context scopes e
    let others ← inExprs context scopes rest
    return first ++ others

end

def inOptional (context : Context) (scopes : Scopes) : Option Expr → Except StaticError Distances
  | none => .ok []
  | some e => inExpr context scopes e

def isNil : Expr → Bool
  | .literal _ .nil => true
  | _ => false

def inReturned (context : Context) (scopes : Scopes) (keyword : Token) (value : Option Expr) :
    Except StaticError Distances :=
  if context.function = .topLevel then .error ⟨.returnOutside, keyword⟩
  else match value with
    | none => .ok []
    | some e =>
      if context.function = .initializer && !isNil e then
        .error ⟨.returnFromInitializer, keyword⟩
      else inExpr context scopes e

def methodContext (name : Token) : FunctionContext :=
  if name.lexeme = "init" then .initializer else .method

def classContext (superclass : Option Variable) : ClassContext :=
  if superclass.isSome then .derived else .plain

def inHeritage (scopes : Scopes) (name : Token) : Option Variable → Except StaticError Distances
  | none => .ok []
  | some use =>
    if use.name.lexeme = name.lexeme then .error ⟨.selfInheritance, use.name⟩
    else readDistance scopes use.id use.name

def methodScopes (scopes : Scopes) (superclass : Option Variable) : Scopes :=
  let around := if superclass.isSome then [("super", Stage.defined)] :: scopes else scopes
  [("this", .defined)] :: around

mutual

/-- The distances of the uses in a statement, and the scopes after it. -/
def inStmt (context : Context) (scopes : Scopes) :
    Stmt → Except StaticError (Scopes × Distances)
  | .expression _ e | .print _ e => do
    return (scopes, ← inExpr context scopes e)
  | .var _ name initializer => do
    let scopes ← declare scopes name
    let inner ← inOptional context scopes initializer
    return (define scopes name, inner)
  | .block _ body => do
    let (_, inner) ← inStmts context ([] :: scopes) body
    return (scopes, inner)
  | .branch _ condition yes none => do
    let first ← inExpr context scopes condition
    let (scopes, second) ← inStmt context scopes yes
    return (scopes, first ++ second)
  | .branch _ condition yes (some no) => do
    let first ← inExpr context scopes condition
    let (scopes, second) ← inStmt context scopes yes
    let (scopes, third) ← inStmt context scopes no
    return (scopes, first ++ second ++ third)
  | .loop _ condition body => do
    let first ← inExpr context scopes condition
    let (scopes, second) ← inStmt context scopes body
    return (scopes, first ++ second)
  | .function decl => do
    let scopes ← introduce scopes decl.name
    return (scopes, ← inFunction ⟨.function, context.enclosingClass⟩ scopes decl)
  | .returns _ keyword value => do
    return (scopes, ← inReturned context scopes keyword value)
  | .classDecl _ name superclass methods => do
    let scopes ← introduce scopes name
    let first ← inHeritage scopes name superclass
    let others ← inMethods (classContext superclass) (methodScopes scopes superclass) methods
    return (scopes, first ++ others)

def inStmts (context : Context) (scopes : Scopes) :
    List Stmt → Except StaticError (Scopes × Distances)
  | [] => .ok (scopes, [])
  | s :: rest => do
    let (scopes, first) ← inStmt context scopes s
    let (scopes, others) ← inStmts context scopes rest
    return (scopes, first ++ others)

/-- The distances of the uses in a function, whose parameters share the scope of its body. -/
def inFunction (context : Context) (scopes : Scopes) :
    FunctionDecl → Except StaticError Distances
  | .mk _ _ params body => do
    let inner ← params.foldlM introduce ([] :: scopes)
    let (_, distances) ← inStmts context inner body
    return distances

def inMethods (enclosingClass : ClassContext) (scopes : Scopes) :
    List FunctionDecl → Except StaticError Distances
  | [] => .ok []
  | m :: rest => do
    let first ← inFunction ⟨methodContext m.name, enclosingClass⟩ scopes m
    let others ← inMethods enclosingClass scopes rest
    return first ++ others

end

end Static

/-- The distances of all uses of local names in a program, or the first broken rule. -/
def distancesOf (program : List Stmt) : Except StaticError Distances := do
  let (_, distances) ← Static.inStmts ⟨.topLevel, .outside⟩ [] program
  return distances

end LoxMachine
