import LoxMachine.Proofs.Program.Formed

namespace LoxMachine

/-- The number is greater than all of these. -/
def Tops (id : NodeId) (ids : List NodeId) : Prop := ∀ i ∈ ids, i < id

theorem Numbered.tops {lo id : Nat} {ids : List Nat} (numbered : Numbered lo id ids) : Tops id ids :=
  fun i member => (numbered.2.2 i member).2

mutual

/-- Every node of the expression has a greater number than the nodes in it. -/
def Expr.Ranked : Expr → Prop
  | .literal _ _ | .read _ | .this _ _ | .super _ _ _ => True
  | .assign id _ inner | .unary id _ inner | .grouping id inner | .get id inner _ =>
    Tops id inner.ids ∧ inner.Ranked
  | .binary id left _ right | .logical id left _ right =>
    Tops id (left.ids ++ right.ids) ∧ left.Ranked ∧ right.Ranked
  | .call id callee _ arguments =>
    Tops id (callee.ids ++ exprsIds arguments) ∧ callee.Ranked ∧ ExprsRanked arguments
  | .set id object _ value => Tops id (value.ids ++ object.ids) ∧ object.Ranked ∧ value.Ranked

def ExprsRanked : List Expr → Prop
  | [] => True
  | e :: rest => e.Ranked ∧ ExprsRanked rest

end

def OptionalRanked : Option Expr → Prop
  | none => True
  | some e => e.Ranked

mutual

/-- Every node of the statement has a greater number than the nodes in it. -/
def Stmt.Ranked : Stmt → Prop
  | .expression id e | .print id e => Tops id e.ids ∧ e.Ranked
  | .var id _ value | .returns id _ value => Tops id (optionalIds value) ∧ OptionalRanked value
  | .block id body => Tops id (stmtsIds body) ∧ StmtsRanked body
  | .branch id condition yes none =>
    Tops id (condition.ids ++ yes.ids) ∧ condition.Ranked ∧ yes.Ranked
  | .branch id condition yes (some no) =>
    Tops id (condition.ids ++ yes.ids ++ no.ids) ∧ (condition.Ranked ∧ yes.Ranked) ∧ no.Ranked
  | .loop id condition body =>
    Tops id (condition.ids ++ body.ids) ∧ condition.Ranked ∧ body.Ranked
  | .function decl => decl.Ranked
  | .classDecl id _ superclass methods =>
    Tops id ((superclass.map (·.id)).toList ++ methodsIds methods) ∧ MethodsRanked methods

def StmtsRanked : List Stmt → Prop
  | [] => True
  | s :: rest => s.Ranked ∧ StmtsRanked rest

def FunctionDecl.Ranked : FunctionDecl → Prop
  | .mk id _ _ body => Tops id (stmtsIds body) ∧ StmtsRanked body

def MethodsRanked : List FunctionDecl → Prop
  | [] => True
  | m :: rest => m.Ranked ∧ MethodsRanked rest

end

end LoxMachine
