import LoxMachine.Scope.Static
import LoxMachine.Proofs.Program.Formed

namespace LoxMachine

namespace Static

/-- What opens a scope, with the names that are declared in it somewhere in the text. -/
inductive Origin where
  | global
  | block (id : NodeId) (names : List String)
  | function (id : NodeId) (names : List String)
  | receiver
  | heritage
deriving DecidableEq

/-- The names that a scope of this origin can bind. -/
def Origin.names : Origin → List String
  | block _ names | function _ names => names
  | receiver => ["this"]
  | heritage => ["super"]
  | global => []

/-- A scope of the static pass and what opens it. -/
structure Level where
  origin : Origin
  table : Table Stage

def scopesOf (levels : List Level) : Scopes := levels.map (·.table)

def originOf (levels : List Level) : Origin :=
  match levels with
  | [] => .global
  | level :: _ => level.origin

def stage (levels : List Level) (name : String) (s : Stage) : List Level :=
  match levels with
  | [] => []
  | innermost :: outer => { innermost with table := innermost.table.put name s } :: outer

def announce (levels : List Level) (name : Token) : List Level :=
  stage levels name.lexeme .declared

def add (levels : List Level) (name : Token) : List Level :=
  stage (announce levels name) name.lexeme .defined

def addAll (levels : List Level) (names : List Token) : List Level := names.foldl add levels

def blockLevels (levels : List Level) (id : NodeId) (body : List Stmt) : List Level :=
  ⟨.block id (namesOf body), []⟩ :: levels

def functionOrigin (id : NodeId) (params : List Token) (body : List Stmt) : Origin :=
  .function id (params.map (·.lexeme) ++ namesOf body)

def functionLevels (levels : List Level) (id : NodeId) (params : List Token) (body : List Stmt) :
    List Level :=
  addAll (⟨functionOrigin id params body, []⟩ :: levels) params

def receiverLevel : Level := ⟨.receiver, [("this", .defined)]⟩

def heritageLevel : Level := ⟨.heritage, [("super", .defined)]⟩

def classLevels (levels : List Level) (superclass : Option Variable) : List Level :=
  if superclass.isSome then heritageLevel :: levels else levels

/-- Something that the static pass comes upon, with the levels around it. -/
inductive Occurrence where
  | use (id : NodeId) (name : Token) (levels : List Level)
  | variable (id : NodeId) (name : Token) (levels : List Level)
  | parameter (id : NodeId) (name : Token) (levels : List Level)
  | callable (name : Token) (levels : List Level)
  | mark (id : NodeId) (token : Token)
  | scope (origin : Origin)

def Occurrence.distance : Occurrence → Distances
  | use id name levels => Static.distance (scopesOf levels) id name
  | «variable» _ _ _ | parameter _ _ _ | callable _ _ | mark _ _ | scope _ => []

def Origin.Known (G : Occurrence → Prop) (o : Origin) : Prop :=
  match o with
  | block _ _ | function _ _ => G (.scope o)
  | global | receiver | heritage => True

theorem Origin.Known.mono {G H : Occurrence → Prop} (all : ∀ o, G o → H o) {origin : Origin}
    (known : origin.Known G) : origin.Known H := by
  cases origin with
  | block id names | function id names => exact all _ known
  | global | receiver | heritage => exact True.intro

end Static

open Static

mutual

/-- What the static pass comes upon in an expression. -/
def Expr.occurrences (levels : List Level) : Expr → List Occurrence
  | .literal _ _ => []
  | .read use => [.use use.id use.name levels]
  | .assign id name value => value.occurrences levels ++ [.use id name levels]
  | .unary id operator right => .mark id operator :: right.occurrences levels
  | .binary id left operator right | .logical id left operator right =>
    .mark id operator :: (left.occurrences levels ++ right.occurrences levels)
  | .grouping _ inner => inner.occurrences levels
  | .call id callee paren arguments =>
    .mark id paren :: (callee.occurrences levels ++ exprsOccurrences levels arguments)
  | .get id object name => .mark id name :: object.occurrences levels
  | .set id object name value =>
    .mark id name :: (value.occurrences levels ++ object.occurrences levels)
  | .this id keyword => [.use id keyword levels]
  | .super id keyword method => [.use id keyword levels, .mark id method]

def exprsOccurrences (levels : List Level) : List Expr → List Occurrence
  | [] => []
  | e :: rest => e.occurrences levels ++ exprsOccurrences levels rest

end

def optionalOccurrences (levels : List Level) : Option Expr → List Occurrence
  | none => []
  | some e => e.occurrences levels

def heritageOccurrences (levels : List Level) : Option Variable → List Occurrence
  | none => []
  | some use => [.use use.id use.name levels]

mutual

/-- What the static pass comes upon in a statement. -/
def Stmt.occurrences (levels : List Level) : Stmt → List Occurrence
  | .expression _ e | .print _ e => e.occurrences levels
  | .var id name initializer =>
    .variable id name levels :: optionalOccurrences (announce levels name) initializer
  | .block id body =>
    .scope (.block id (namesOf body)) :: stmtsOccurrences (blockLevels levels id body) body
  | .branch _ condition yes none => condition.occurrences levels ++ yes.occurrences levels
  | .branch _ condition yes (some no) =>
    condition.occurrences levels ++ yes.occurrences levels
      ++ no.occurrences (addAll levels yes.declared)
  | .loop _ condition body => condition.occurrences levels ++ body.occurrences levels
  | .function decl => .callable decl.name levels :: decl.occurrences (add levels decl.name)
  | .returns id keyword value => .mark id keyword :: optionalOccurrences levels value
  | .classDecl id name superclass methods =>
    .mark id name :: .callable name levels :: (heritageOccurrences (add levels name) superclass
      ++ methodsOccurrences (receiverLevel :: classLevels (add levels name) superclass) methods)

def stmtsOccurrences (levels : List Level) : List Stmt → List Occurrence
  | [] => []
  | s :: rest => s.occurrences levels ++ stmtsOccurrences (addAll levels s.declared) rest

def FunctionDecl.occurrences (levels : List Level) : FunctionDecl → List Occurrence
  | .mk id name params body =>
    .mark id name :: .scope (functionOrigin id params body)
      :: (params.map (.parameter id · (functionLevels levels id params body))
        ++ stmtsOccurrences (functionLevels levels id params body) body)

def methodsOccurrences (levels : List Level) : List FunctionDecl → List Occurrence
  | [] => []
  | m :: rest => m.occurrences levels ++ methodsOccurrences levels rest

end

def occurrencesOf (program : List Stmt) : List Occurrence := stmtsOccurrences [] program

end LoxMachine
