import LoxMachine.Proofs.Program.Words

namespace LoxMachine

def Token.bare (t : Token) : Token := { t with line := 0 }

/-- A token that differs in the line at most. -/
def Token.Alike (u t : Token) : Prop := t.bare = u.bare

theorem Token.Alike.kind {u t : Token} (alike : u.Alike t) : t.kind = u.kind := by
  have same : t.bare.kind = u.bare.kind := congrArg Token.kind alike
  exact same

theorem Word.Matches.kind {w : Word} {t : Token} (same : w.Matches Token.Alike t) :
    t.kind = w.kind := by
  cases w with
  | kept u => exact Token.Alike.kind same
  | plain k => exact same

theorem Spells.write (like : Token) (words : List Word) :
    Spells Token.Alike words (words.map (·.write like)) := by
  induction words with
  | nil => exact .nil
  | cons w rest ih =>
    refine .cons ?_ ih
    cases w with
    | kept u => exact rfl
    | plain k => exact rfl

theorem Spells.alike {words : List Word} {tokens : List Token} (spells : Spells Eq words tokens) :
    Spells Token.Alike words tokens := by
  induction spells with
  | nil => exact .nil
  | @cons w t _ _ first _ ih =>
    refine .cons ?_ ih
    cases w with
    | kept u => exact congrArg Token.bare (Eq.symm first)
    | plain k => exact first

def Variable.bare (use : Variable) : Variable := ⟨0, use.name.bare⟩

mutual

def Expr.bare : Expr → Expr
  | .literal _ value => .literal 0 value
  | .read use => .read use.bare
  | .assign _ name value => .assign 0 name.bare value.bare
  | .unary _ operator right => .unary 0 operator.bare right.bare
  | .binary _ left operator right => .binary 0 left.bare operator.bare right.bare
  | .logical _ left operator right => .logical 0 left.bare operator.bare right.bare
  | .grouping _ inner => .grouping 0 inner.bare
  | .call _ callee paren arguments => .call 0 callee.bare paren.bare (exprsBare arguments)
  | .get _ object name => .get 0 object.bare name.bare
  | .set _ object name value => .set 0 object.bare name.bare value.bare
  | .this _ keyword => .this 0 keyword.bare
  | .super _ keyword method => .super 0 keyword.bare method.bare

def exprsBare : List Expr → List Expr
  | [] => []
  | e :: rest => e.bare :: exprsBare rest

end

mutual

def Stmt.bare : Stmt → Stmt
  | .expression _ e => .expression 0 e.bare
  | .print _ e => .print 0 e.bare
  | .var _ name initializer => .var 0 name.bare (initializer.map Expr.bare)
  | .block _ body => .block 0 (stmtsBare body)
  | .branch _ condition yes none => .branch 0 condition.bare yes.bare none
  | .branch _ condition yes (some no) => .branch 0 condition.bare yes.bare (some no.bare)
  | .loop _ condition body => .loop 0 condition.bare body.bare
  | .function decl => .function decl.bare
  | .returns _ keyword value => .returns 0 keyword.bare (value.map Expr.bare)
  | .classDecl _ name superclass methods =>
    .classDecl 0 name.bare (superclass.map Variable.bare) (methodsBare methods)

def stmtsBare : List Stmt → List Stmt
  | [] => []
  | s :: rest => s.bare :: stmtsBare rest

def FunctionDecl.bare : FunctionDecl → FunctionDecl
  | .mk _ name params body => .mk 0 name.bare (params.map Token.bare) (stmtsBare body)

def methodsBare : List FunctionDecl → List FunctionDecl
  | [] => []
  | m :: rest => m.bare :: methodsBare rest

end

theorem exprsBare_eq (es : List Expr) : exprsBare es = es.map Expr.bare := by
  induction es with
  | nil => rfl
  | cons e rest ih => rw [exprsBare, ih, List.map_cons]

theorem stmtsBare_eq (body : List Stmt) : stmtsBare body = body.map Stmt.bare := by
  induction body with
  | nil => rfl
  | cons s rest ih => rw [stmtsBare, ih, List.map_cons]

theorem methodsBare_eq (methods : List FunctionDecl) :
    methodsBare methods = methods.map FunctionDecl.bare := by
  induction methods with
  | nil => rfl
  | cons m rest ih => rw [methodsBare, ih, List.map_cons]

end LoxMachine
