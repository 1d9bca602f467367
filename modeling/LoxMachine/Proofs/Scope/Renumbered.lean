import LoxMachine.Proofs.Scope.Renamed

namespace LoxMachine

section Trees

variable (k : Nat)

def Variable.renumber (use : Variable) : Variable := ⟨use.id + k, use.name⟩

mutual

def Expr.renumber : Expr → Expr
  | .literal id value => .literal (id + k) value
  | .read use => .read (use.renumber k)
  | .assign id name value => .assign (id + k) name value.renumber
  | .unary id operator right => .unary (id + k) operator right.renumber
  | .binary id left operator right => .binary (id + k) left.renumber operator right.renumber
  | .logical id left operator right => .logical (id + k) left.renumber operator right.renumber
  | .grouping id inner => .grouping (id + k) inner.renumber
  | .call id callee paren arguments =>
    .call (id + k) callee.renumber paren (exprsRenumber arguments)
  | .get id object name => .get (id + k) object.renumber name
  | .set id object name value => .set (id + k) object.renumber name value.renumber
  | .this id keyword => .this (id + k) keyword
  | .super id keyword method => .super (id + k) keyword method

def exprsRenumber : List Expr → List Expr
  | [] => []
  | e :: rest => e.renumber :: exprsRenumber rest

end

mutual

def Stmt.renumber : Stmt → Stmt
  | .expression id e => .expression (id + k) (e.renumber k)
  | .print id e => .print (id + k) (e.renumber k)
  | .var id name initializer => .var (id + k) name (initializer.map (·.renumber k))
  | .block id body => .block (id + k) (stmtsRenumber body)
  | .branch id condition yes none => .branch (id + k) (condition.renumber k) yes.renumber none
  | .branch id condition yes (some no) =>
    .branch (id + k) (condition.renumber k) yes.renumber (some no.renumber)
  | .loop id condition body => .loop (id + k) (condition.renumber k) body.renumber
  | .function decl => .function decl.renumber
  | .returns id keyword value => .returns (id + k) keyword (value.map (·.renumber k))
  | .classDecl id name superclass methods =>
    .classDecl (id + k) name (superclass.map (·.renumber k)) (methodsRenumber methods)

def stmtsRenumber : List Stmt → List Stmt
  | [] => []
  | s :: rest => s.renumber :: stmtsRenumber rest

def FunctionDecl.renumber : FunctionDecl → FunctionDecl
  | .mk id name params body => .mk (id + k) name params (stmtsRenumber body)

def methodsRenumber : List FunctionDecl → List FunctionDecl
  | [] => []
  | m :: rest => m.renumber :: methodsRenumber rest

end

def Distances.renumber (ds : Distances) : Distances := ds.map fun entry => (entry.1 + k, entry.2)

end Trees

mutual

theorem Expr.renumber_zero (e : Expr) : e.renumber 0 = e := by
  match e with
  | .literal _ _ | .read _ | .this _ _ | .super _ _ _ => rfl
  | .assign _ _ inner | .unary _ _ inner | .grouping _ inner | .get _ inner _ =>
    simp only [Expr.renumber, inner.renumber_zero, Nat.add_zero]
  | .binary _ left _ right | .logical _ left _ right | .set _ left _ right =>
    simp only [Expr.renumber, left.renumber_zero, right.renumber_zero, Nat.add_zero]
  | .call _ callee _ arguments =>
    simp only [Expr.renumber, callee.renumber_zero, exprsRenumber_zero arguments, Nat.add_zero]

theorem exprsRenumber_zero (es : List Expr) : exprsRenumber 0 es = es := by
  match es with
  | [] => rfl
  | e :: rest => rw [exprsRenumber, e.renumber_zero, exprsRenumber_zero rest]

end

theorem optionalRenumber_zero (e : Option Expr) : e.map (·.renumber 0) = e := by
  cases e with
  | none => rfl
  | some e => exact congrArg some e.renumber_zero

mutual

theorem Stmt.renumber_zero (s : Stmt) : s.renumber 0 = s := by
  match s with
  | .expression _ e | .print _ e => simp only [Stmt.renumber, e.renumber_zero, Nat.add_zero]
  | .var _ _ value | .returns _ _ value =>
    simp only [Stmt.renumber, optionalRenumber_zero value, Nat.add_zero]
  | .block _ body => simp only [Stmt.renumber, stmtsRenumber_zero body, Nat.add_zero]
  | .branch _ condition yes none | .loop _ condition yes =>
    simp only [Stmt.renumber, condition.renumber_zero, yes.renumber_zero, Nat.add_zero]
  | .branch _ condition yes (some no) =>
    simp only [Stmt.renumber, condition.renumber_zero, yes.renumber_zero, no.renumber_zero,
      Nat.add_zero]
  | .function decl => rw [Stmt.renumber, decl.renumber_zero]
  | .classDecl _ _ superclass methods =>
    simp only [Stmt.renumber, methodsRenumber_zero methods, Nat.add_zero]
    cases superclass <;> rfl

theorem stmtsRenumber_zero (body : List Stmt) : stmtsRenumber 0 body = body := by
  match body with
  | [] => rfl
  | s :: rest => rw [stmtsRenumber, s.renumber_zero, stmtsRenumber_zero rest]

theorem FunctionDecl.renumber_zero (decl : FunctionDecl) : decl.renumber 0 = decl := by
  match decl with
  | .mk _ _ _ body => simp only [FunctionDecl.renumber, stmtsRenumber_zero body, Nat.add_zero]

theorem methodsRenumber_zero (methods : List FunctionDecl) : methodsRenumber 0 methods = methods := by
  match methods with
  | [] => rfl
  | m :: rest => rw [methodsRenumber, m.renumber_zero, methodsRenumber_zero rest]

end

section Moved

variable {k : Nat}

mutual

theorem Expr.renumber_eq_rename (e : Expr) : e.renumber k = e.rename (· + k) := by
  match e with
  | .literal _ _ | .read _ | .this _ _ | .super _ _ _ => rfl
  | .assign _ _ inner | .unary _ _ inner | .grouping _ inner | .get _ inner _ =>
    simp only [Expr.renumber, Expr.rename, inner.renumber_eq_rename]
  | .binary _ left _ right | .logical _ left _ right | .set _ left _ right =>
    simp only [Expr.renumber, Expr.rename, left.renumber_eq_rename, right.renumber_eq_rename]
  | .call _ callee _ arguments =>
    simp only [Expr.renumber, Expr.rename, callee.renumber_eq_rename,
      exprsRenumber_eq_rename arguments]

theorem exprsRenumber_eq_rename (es : List Expr) : exprsRenumber k es = exprsRename (· + k) es := by
  match es with
  | [] => rfl
  | e :: rest => rw [exprsRenumber, exprsRename, e.renumber_eq_rename, exprsRenumber_eq_rename rest]

end

theorem optionalRenumber_eq_rename (e : Option Expr) :
    e.map (·.renumber k) = e.map (·.rename (· + k)) := by
  cases e with
  | none => rfl
  | some e => exact congrArg some e.renumber_eq_rename

mutual

theorem Stmt.renumber_eq_rename (s : Stmt) : s.renumber k = s.rename (· + k) := by
  match s with
  | .expression _ e | .print _ e => simp only [Stmt.renumber, Stmt.rename, e.renumber_eq_rename]
  | .var _ _ value | .returns _ _ value =>
    simp only [Stmt.renumber, Stmt.rename, optionalRenumber_eq_rename value]
  | .block _ body => simp only [Stmt.renumber, Stmt.rename, stmtsRenumber_eq_rename body]
  | .branch _ condition yes none | .loop _ condition yes =>
    simp only [Stmt.renumber, Stmt.rename, condition.renumber_eq_rename, yes.renumber_eq_rename]
  | .branch _ condition yes (some no) =>
    simp only [Stmt.renumber, Stmt.rename, condition.renumber_eq_rename, yes.renumber_eq_rename,
      no.renumber_eq_rename]
  | .function decl => rw [Stmt.renumber, Stmt.rename, decl.renumber_eq_rename]
  | .classDecl _ _ superclass methods =>
    simp only [Stmt.renumber, Stmt.rename, methodsRenumber_eq_rename methods]
    rfl

theorem stmtsRenumber_eq_rename (body : List Stmt) :
    stmtsRenumber k body = stmtsRename (· + k) body := by
  match body with
  | [] => rfl
  | s :: rest => rw [stmtsRenumber, stmtsRename, s.renumber_eq_rename, stmtsRenumber_eq_rename rest]

theorem FunctionDecl.renumber_eq_rename (decl : FunctionDecl) :
    decl.renumber k = decl.rename (· + k) := by
  match decl with
  | .mk _ _ _ body =>
    simp only [FunctionDecl.renumber, FunctionDecl.rename, stmtsRenumber_eq_rename body]

theorem methodsRenumber_eq_rename (methods : List FunctionDecl) :
    methodsRenumber k methods = methodsRename (· + k) methods := by
  match methods with
  | [] => rfl
  | m :: rest =>
    rw [methodsRenumber, methodsRename, m.renumber_eq_rename, methodsRenumber_eq_rename rest]

end

end Moved

theorem distancesOf_renumber {k : Nat} {program : List Stmt} {ds : Distances}
    (checked : distancesOf program = .ok ds) :
    distancesOf (stmtsRenumber k program) = .ok (ds.renumber k) := by
  rw [stmtsRenumber_eq_rename, distancesOf_rename, checked]
  rfl

end LoxMachine
