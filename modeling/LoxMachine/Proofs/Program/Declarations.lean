import LoxMachine.Proofs.Program.Formed

namespace LoxMachine

mutual

/-- All names that a statement declares, in its own scope or in one inside. -/
def Stmt.declarations : Stmt → List Token
  | .var _ name _ => [name]
  | .block _ body => stmtsDeclarations body
  | .branch _ _ yes none => yes.declarations
  | .branch _ _ yes (some no) => yes.declarations ++ no.declarations
  | .loop _ _ body => body.declarations
  | .function decl => decl.name :: decl.declarations
  | .classDecl _ name _ methods => name :: methodsDeclarations methods
  | .expression _ _ | .print _ _ | .returns _ _ _ => []

def stmtsDeclarations : List Stmt → List Token
  | [] => []
  | s :: rest => s.declarations ++ stmtsDeclarations rest

def FunctionDecl.declarations : FunctionDecl → List Token
  | .mk _ _ params body => params ++ stmtsDeclarations body

def methodsDeclarations : List FunctionDecl → List Token
  | [] => []
  | m :: rest => m.declarations ++ methodsDeclarations rest

end

mutual

/-- The names that are assigned in an expression. -/
def Expr.assigned : Expr → List Token
  | .literal _ _ | .read _ | .this _ _ | .super _ _ _ => []
  | .assign _ name value => name :: value.assigned
  | .unary _ _ inner | .grouping _ inner | .get _ inner _ => inner.assigned
  | .binary _ left _ right | .logical _ left _ right => left.assigned ++ right.assigned
  | .call _ callee _ arguments => callee.assigned ++ exprsAssigned arguments
  | .set _ object _ value => object.assigned ++ value.assigned

def exprsAssigned : List Expr → List Token
  | [] => []
  | e :: rest => e.assigned ++ exprsAssigned rest

end

mutual

/-- The variables of a statement that have an initializer, with the initializer. -/
def Stmt.initializers : Stmt → List (Token × Expr)
  | .var _ name (some e) => [(name, e)]
  | .block _ body => stmtsInitializers body
  | .branch _ _ yes none => yes.initializers
  | .branch _ _ yes (some no) => yes.initializers ++ no.initializers
  | .loop _ _ body => body.initializers
  | .function decl => decl.initializers
  | .classDecl _ _ _ methods => methodsInitializers methods
  | .var _ _ none | .expression _ _ | .print _ _ | .returns _ _ _ => []

def stmtsInitializers : List Stmt → List (Token × Expr)
  | [] => []
  | s :: rest => s.initializers ++ stmtsInitializers rest

def FunctionDecl.initializers : FunctionDecl → List (Token × Expr)
  | .mk _ _ _ body => stmtsInitializers body

def methodsInitializers : List FunctionDecl → List (Token × Expr)
  | [] => []
  | m :: rest => m.initializers ++ methodsInitializers rest

end

theorem declared_sublist (s : Stmt) : s.declared.Sublist s.declarations := by
  match s with
  | .var _ _ _ => exact List.Sublist.refl _
  | .function _ | .classDecl _ _ _ _ => exact (List.nil_sublist _).cons_cons _
  | .branch _ _ yes none => exact declared_sublist yes
  | .branch _ _ yes (some no) => exact (declared_sublist yes).append (declared_sublist no)
  | .loop _ _ body => exact declared_sublist body
  | .expression _ _ | .print _ _ | .block _ _ | .returns _ _ _ => exact List.nil_sublist _

theorem flatMap_declared_sublist (body : List Stmt) :
    (body.flatMap Stmt.declared).Sublist (stmtsDeclarations body) := by
  induction body with
  | nil => exact List.nil_sublist _
  | cons s rest ih =>
    rw [List.flatMap_cons, stmtsDeclarations]
    exact (declared_sublist s).append ih

end LoxMachine
