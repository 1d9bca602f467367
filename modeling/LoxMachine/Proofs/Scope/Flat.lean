import LoxMachine.Scope.Static
import LoxMachine.Proofs.Recode.Flat

namespace LoxMachine

def StaticError.bare (e : StaticError) : StaticError := ⟨e.rule, e.token.bare⟩

namespace Static

abbrev flatten {α : Type} (result : Except StaticError α) : Except StaticError α :=
  result.mapError StaticError.bare

variable {context : Context} {scopes : Scopes}

theorem flatten_bind {α β : Type} (result : Except StaticError α)
    (next : α → Except StaticError β) :
    flatten (result >>= next) = flatten result >>= fun a => flatten (next a) := by
  cases result <;> rfl

theorem declare_flat (scopes : Scopes) (name : Token) :
    declare scopes name.bare = flatten (declare scopes name) := by
  cases scopes with
  | nil => rfl
  | cons innermost outer =>
    unfold declare
    change (if innermost.contains name.lexeme = true then _ else _) = flatten (if _ then _ else _)
    split <;> rfl

theorem introduce_flat (scopes : Scopes) (name : Token) :
    introduce scopes name.bare = flatten (introduce scopes name) := by
  unfold introduce
  rw [declare_flat, flatten_bind]
  rfl

theorem readDistance_flat (id : NodeId) (name : Token) :
    readDistance scopes id name.bare = flatten (readDistance scopes id name) := by
  cases scopes with
  | nil => rfl
  | cons innermost outer =>
    unfold readDistance
    change (if innermost.get? name.lexeme = some .declared then _ else _) = flatten (if _ then _ else _)
    split <;> rfl

mutual

theorem inExpr_flat (e : Expr) :
    inExpr context scopes (e.recode .flat) = flatten (inExpr context scopes e) := by
  match e with
  | .literal _ _ => rfl
  | .read use => exact readDistance_flat use.id use.name
  | .assign _ _ value =>
    simp only [Expr.recode, inExpr, inExpr_flat value, flatten_bind]
    rfl
  | .unary _ _ inner | .grouping _ inner | .get _ inner _ => exact inExpr_flat inner
  | .binary _ left _ right | .logical _ left _ right | .set _ right _ left =>
    simp only [Expr.recode, inExpr, inExpr_flat left, inExpr_flat right, flatten_bind]
    rfl
  | .call _ callee _ arguments =>
    simp only [Expr.recode, inExpr, inExpr_flat callee, inExprs_flat arguments, flatten_bind]
    rfl
  | .this id keyword =>
    simp only [Expr.recode, inExpr]
    split
    · rfl
    · exact readDistance_flat id keyword
  | .super id keyword _ =>
    simp only [Expr.recode, inExpr]
    split <;> rfl

theorem inExprs_flat (es : List Expr) :
    inExprs context scopes (exprsRecode .flat es) = flatten (inExprs context scopes es) := by
  match es with
  | [] => rfl
  | e :: rest =>
    simp only [exprsRecode, inExprs, inExpr_flat e, inExprs_flat rest, flatten_bind]
    rfl

end

theorem inOptional_flat (e : Option Expr) :
    inOptional context scopes (e.map (·.recode .flat)) = flatten (inOptional context scopes e) := by
  cases e with
  | none => rfl
  | some e => exact inExpr_flat e

theorem inReturned_flat (keyword : Token) (value : Option Expr) :
    inReturned context scopes keyword.bare (value.map (·.recode .flat)) =
      flatten (inReturned context scopes keyword value) := by
  unfold inReturned
  split
  · rfl
  · cases value with
    | none => rfl
    | some e =>
      have words : isNil (e.recode .flat) = isNil e := by cases e <;> rfl
      simp only [Option.map_some, words]
      split
      · rfl
      · exact inExpr_flat e

theorem inHeritage_flat (name : Token) (superclass : Option Variable) :
    inHeritage scopes name.bare (superclass.map (·.recode .flat)) =
      flatten (inHeritage scopes name superclass) := by
  cases superclass with
  | none => rfl
  | some use =>
    change (if use.name.lexeme = name.lexeme then _ else _) = flatten (if _ then _ else _)
    split
    · rfl
    · exact readDistance_flat use.id use.name

theorem parameters_flat (params : List Token) (scopes : Scopes) :
    (params.map Token.bare).foldlM introduce scopes = flatten (params.foldlM introduce scopes) := by
  induction params generalizing scopes with
  | nil => rfl
  | cons param rest ih =>
    simp only [List.map_cons, List.foldlM_cons, introduce_flat, flatten_bind, ih]

mutual

theorem inStmt_flat (s : Stmt) {context : Context} {scopes : Scopes} :
    inStmt context scopes (s.recode .flat) = flatten (inStmt context scopes s) := by
  match s with
  | .expression _ e | .print _ e =>
    simp only [Stmt.recode, inStmt, inExpr_flat e, flatten_bind]
    rfl
  | .var _ name initializer =>
    have named : Respelling.flat.declare = fun _ => Token.bare := rfl
    simp only [Stmt.recode, inStmt, named, declare_flat, inOptional_flat initializer, flatten_bind]
    rfl
  | .block _ body =>
    simp only [Stmt.recode, inStmt, inStmts_flat body, flatten_bind]
    rfl
  | .branch _ condition yes none | .loop _ condition yes =>
    simp only [Stmt.recode, inStmt, inExpr_flat condition, inStmt_flat yes, flatten_bind]
    rfl
  | .branch _ condition yes (some no) =>
    simp only [Stmt.recode, inStmt, inExpr_flat condition, inStmt_flat yes, inStmt_flat no,
      flatten_bind]
    rfl
  | .function decl =>
    have named : (decl.recode .flat).name = decl.name.bare := by cases decl; rfl
    simp only [Stmt.recode, inStmt, named, introduce_flat, inFunction_flat decl, flatten_bind]
    rfl
  | .returns _ keyword value =>
    have marked : Respelling.flat.mark = fun _ => Token.bare := rfl
    simp only [Stmt.recode, inStmt, marked, inReturned_flat, flatten_bind]
    rfl
  | .classDecl _ name superclass methods =>
    have kind : classContext (superclass.map (·.recode .flat)) = classContext superclass := by
      rw [classContext, Option.isSome_map, classContext]
    have around (scopes : Scopes) :
        methodScopes scopes (superclass.map (·.recode .flat)) = methodScopes scopes superclass := by
      rw [methodScopes, Option.isSome_map, methodScopes]
    have marked : Respelling.flat.mark = fun _ => Token.bare := rfl
    simp only [Stmt.recode, inStmt, marked, introduce_flat, inHeritage_flat, kind, around,
      inMethods_flat methods, flatten_bind]
    rfl

theorem inStmts_flat (body : List Stmt) {context : Context} {scopes : Scopes} :
    inStmts context scopes (stmtsRecode .flat body) = flatten (inStmts context scopes body) := by
  match body with
  | [] => rfl
  | s :: rest =>
    simp only [stmtsRecode, inStmts, inStmt_flat s, inStmts_flat rest, flatten_bind]
    rfl

theorem inFunction_flat (decl : FunctionDecl) {context : Context} {scopes : Scopes} :
    inFunction context scopes (decl.recode .flat) = flatten (inFunction context scopes decl) := by
  match decl with
  | .mk _ _ params body =>
    have declared : ∀ id, Respelling.flat.declare id = Token.bare := fun _ => rfl
    simp only [FunctionDecl.recode, inFunction, declared, parameters_flat, inStmts_flat body,
      flatten_bind]
    rfl

theorem inMethods_flat (methods : List FunctionDecl) {enclosingClass : ClassContext}
    {scopes : Scopes} :
    inMethods enclosingClass scopes (methodsRecode .flat methods) =
      flatten (inMethods enclosingClass scopes methods) := by
  match methods with
  | [] => rfl
  | m :: rest =>
    have kind : methodContext (m.recode .flat).name = methodContext m.name := by cases m; rfl
    simp only [methodsRecode, inMethods, kind, inFunction_flat m, inMethods_flat rest, flatten_bind]
    rfl

end

end Static

theorem distancesOf_flat (program : List Stmt) :
    distancesOf (stmtsRecode .flat program) = (distancesOf program).mapError StaticError.bare := by
  unfold distancesOf
  rw [Static.inStmts_flat]
  cases Static.inStmts _ [] program <;> rfl

end LoxMachine
