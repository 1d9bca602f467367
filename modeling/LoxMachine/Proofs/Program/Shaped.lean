import LoxMachine.Program.Basic

namespace LoxMachine

/-- How tight a binary operator binds. -/
def precedence : Kind → Option Nat
  | .keyword .orWord => some 1
  | .keyword .andWord => some 2
  | .symbol .bangEqual | .symbol .equalEqual => some 3
  | .symbol .greater | .symbol .greaterEqual | .symbol .less | .symbol .lessEqual => some 4
  | .symbol .plus | .symbol .minus => some 5
  | .symbol .star | .symbol .slash => some 6
  | _ => none

/-- The level of an expression, by its outermost node. -/
def Expr.level : Expr → Nat
  | .assign _ _ _ | .set _ _ _ _ => 0
  | .binary _ _ operator _ | .logical _ _ operator _ => (precedence operator.kind).getD 0
  | .unary _ _ _ => 7
  | .call _ _ _ _ | .get _ _ _ => 8
  | .literal _ _ | .read _ | .grouping _ _ | .this _ _ | .super _ _ _ => 9

/-- Two operands of an operator that binds as tight as the bounds say. The operators of a level
group from the left. -/
def Operands (least most : Nat) (left : Expr) (operator : Token) (right : Expr) : Prop :=
  ∃ p, precedence operator.kind = some p ∧ least ≤ p ∧ p ≤ most ∧ p ≤ left.level ∧ p < right.level

mutual

/-- An expression whose parts bind as tight as their places ask for. -/
def Expr.Shaped : Expr → Prop
  | .literal _ _ => True
  | .read use => use.name.kind = .identifier
  | .assign _ name value => name.kind = .identifier ∧ value.Shaped
  | .unary _ operator right =>
    (operator.kind = .symbol .bang ∨ operator.kind = .symbol .minus) ∧ 7 ≤ right.level ∧ right.Shaped
  | .binary _ left operator right => Operands 3 6 left operator right ∧ left.Shaped ∧ right.Shaped
  | .logical _ left operator right => Operands 1 2 left operator right ∧ left.Shaped ∧ right.Shaped
  | .grouping _ inner => inner.Shaped
  | .call _ callee paren arguments =>
    8 ≤ callee.level ∧ callee.Shaped ∧ paren.kind = .symbol .rightParen ∧ ExprsShaped arguments
  | .get _ object name => 8 ≤ object.level ∧ object.Shaped ∧ name.kind = .identifier
  | .set _ object name value =>
    8 ≤ object.level ∧ object.Shaped ∧ name.kind = .identifier ∧ value.Shaped
  | .this _ keyword => keyword.kind = .keyword .thisWord
  | .super _ keyword method => keyword.kind = .keyword .superWord ∧ method.kind = .identifier

def ExprsShaped : List Expr → Prop
  | [] => True
  | e :: rest => e.Shaped ∧ ExprsShaped rest

end

def OptionalShaped : Option Expr → Prop
  | none => True
  | some e => e.Shaped

def HeritageShaped : Option Variable → Prop
  | none => True
  | some use => use.name.kind = .identifier

def Stmt.Plain : Stmt → Prop
  | .var _ _ _ | .function _ | .classDecl _ _ _ _ => False
  | .expression _ _ | .print _ _ | .block _ _ | .branch _ _ _ _ | .loop _ _ _ | .returns _ _ _ => True

/-- A statement that ends, through bodies of loops and branches, in a condition without `else`: an
`else` behind it would belong to that condition. -/
def Stmt.EndsOpen : Stmt → Prop
  | .branch _ _ _ none => True
  | .branch _ _ _ (some no) => no.EndsOpen
  | .loop _ _ body => body.EndsOpen
  | .expression _ _ | .print _ _ | .var _ _ _ | .block _ _ | .function _ | .returns _ _ _
  | .classDecl _ _ _ _ => False

mutual

/-- A statement in which declarations stand in blocks only and every `else` belongs to the nearest
condition. -/
def Stmt.Shaped : Stmt → Prop
  | .expression _ e | .print _ e => e.Shaped
  | .var _ name initializer => name.kind = .identifier ∧ OptionalShaped initializer
  | .block _ body => StmtsShaped body
  | .branch _ condition yes none => condition.Shaped ∧ yes.Shaped ∧ yes.Plain
  | .branch _ condition yes (some no) =>
    condition.Shaped ∧ (yes.Shaped ∧ yes.Plain ∧ ¬ yes.EndsOpen) ∧ no.Shaped ∧ no.Plain
  | .loop _ condition body => condition.Shaped ∧ body.Shaped ∧ body.Plain
  | .function decl => decl.Shaped
  | .returns _ keyword value => keyword.kind = .keyword .returnWord ∧ OptionalShaped value
  | .classDecl _ name superclass methods =>
    name.kind = .identifier ∧ HeritageShaped superclass ∧ MethodsShaped methods

def StmtsShaped : List Stmt → Prop
  | [] => True
  | s :: rest => s.Shaped ∧ StmtsShaped rest

def FunctionDecl.Shaped : FunctionDecl → Prop
  | .mk _ name params body =>
    name.kind = .identifier ∧ (∀ p ∈ params, p.kind = .identifier) ∧ StmtsShaped body

def MethodsShaped : List FunctionDecl → Prop
  | [] => True
  | m :: rest => m.Shaped ∧ MethodsShaped rest

end

theorem exprsShaped_iff {es : List Expr} : ExprsShaped es ↔ ∀ e ∈ es, e.Shaped := by
  induction es with
  | nil => simp [ExprsShaped]
  | cons e rest ih => rw [ExprsShaped, List.forall_mem_cons, ih]

theorem stmtsShaped_iff {body : List Stmt} : StmtsShaped body ↔ ∀ s ∈ body, s.Shaped := by
  induction body with
  | nil => simp [StmtsShaped]
  | cons s rest ih => rw [StmtsShaped, List.forall_mem_cons, ih]

theorem methodsShaped_iff {methods : List FunctionDecl} :
    MethodsShaped methods ↔ ∀ m ∈ methods, m.Shaped := by
  induction methods with
  | nil => simp [MethodsShaped]
  | cons m rest ih => rw [MethodsShaped, List.forall_mem_cons, ih]

end LoxMachine
