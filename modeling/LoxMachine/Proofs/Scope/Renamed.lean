import LoxMachine.Scope.Static
import LoxMachine.Proofs.Program.Renamed

namespace LoxMachine

namespace Distances

def rename (f : NodeId → NodeId) (ds : Distances) : Distances :=
  ds.map fun entry => (f entry.1, entry.2)

variable {f : NodeId → NodeId}

theorem rename_append (first others : Distances) :
    rename f (first ++ others) = first.rename f ++ others.rename f := List.map_append

theorem lookup_rename (apart : ∀ i j, f i = f j → i = j) (ds : Distances) (id : NodeId) :
    (ds.rename f).lookup (f id) = ds.lookup id := by
  induction ds with
  | nil => rfl
  | cons entry rest ih =>
    obtain ⟨other, d⟩ := entry
    change List.lookup (f id) ((f other, d) :: rename f rest) = List.lookup id ((other, d) :: rest)
    rw [List.lookup_cons, List.lookup_cons, ih]
    by_cases same : id = other
    · subst same
      rw [beq_self_eq_true, beq_self_eq_true]
    · have differ : f id ≠ f other := fun equal => same (apart id other equal)
      rw [beq_eq_false_iff_ne.mpr same, beq_eq_false_iff_ne.mpr differ]

end Distances

namespace Static

variable {f : NodeId → NodeId} {context : Context} {scopes : Scopes}

theorem distance_rename (id : NodeId) (name : Token) :
    distance scopes (f id) name = (distance scopes id name).rename f := by
  unfold distance
  split <;> rfl

theorem readDistance_rename (id : NodeId) (name : Token) :
    readDistance scopes (f id) name = (readDistance scopes id name).map (·.rename f) := by
  unfold readDistance
  split
  · split
    · rfl
    · rw [distance_rename]
      rfl
  · rfl

theorem append_rename (first others : Except StaticError Distances) :
    (do
      let a ← first.map (·.rename f)
      let b ← others.map (·.rename f)
      return a ++ b : Except StaticError Distances) =
      (do
        let a ← first
        let b ← others
        return a ++ b : Except StaticError Distances).map (·.rename f) := by
  cases first with
  | error e => rfl
  | ok a =>
    cases others with
    | error e => rfl
    | ok b => exact congrArg Except.ok (Distances.rename_append a b).symm

mutual

theorem inExpr_rename (e : Expr) :
    inExpr context scopes (e.rename f) = (inExpr context scopes e).map (·.rename f) := by
  match e with
  | .literal _ _ => rfl
  | .read use => exact readDistance_rename use.id use.name
  | .assign id name value =>
    simp only [Expr.rename, inExpr, inExpr_rename value, distance_rename]
    cases inExpr context scopes value with
    | error e => rfl
    | ok inner => exact congrArg Except.ok (Distances.rename_append _ _).symm
  | .unary _ _ inner | .grouping _ inner | .get _ inner _ => exact inExpr_rename inner
  | .binary _ left _ right | .logical _ left _ right | .set _ right _ left =>
    simp only [Expr.rename, inExpr, inExpr_rename left, inExpr_rename right]
    exact append_rename _ _
  | .call _ callee _ arguments =>
    simp only [Expr.rename, inExpr, inExpr_rename callee, inExprs_rename arguments]
    exact append_rename _ _
  | .this id keyword =>
    simp only [Expr.rename, inExpr]
    split
    · rfl
    · exact readDistance_rename id keyword
  | .super id keyword _ =>
    simp only [Expr.rename, inExpr, distance_rename]
    split <;> rfl

theorem inExprs_rename (es : List Expr) :
    inExprs context scopes (exprsRename f es) = (inExprs context scopes es).map (·.rename f) := by
  match es with
  | [] => rfl
  | e :: rest =>
    simp only [exprsRename, inExprs, inExpr_rename e, inExprs_rename rest]
    exact append_rename _ _

end

theorem inOptional_rename (e : Option Expr) :
    inOptional context scopes (e.map (·.rename f)) =
      (inOptional context scopes e).map (·.rename f) := by
  cases e with
  | none => rfl
  | some e => exact inExpr_rename e

theorem isNil_rename (e : Expr) : isNil (e.rename f) = isNil e := by
  cases e with
  | literal id value => cases value <;> rfl
  | _ => rfl

theorem inReturned_rename (keyword : Token) (value : Option Expr) :
    inReturned context scopes keyword (value.map (·.rename f)) =
      (inReturned context scopes keyword value).map (·.rename f) := by
  unfold inReturned
  split
  · rfl
  · cases value with
    | none => rfl
    | some e =>
      simp only [Option.map_some, isNil_rename]
      split
      · rfl
      · exact inExpr_rename e

theorem inHeritage_rename (name : Token) (superclass : Option Variable) :
    inHeritage scopes name (superclass.map (·.rename f)) =
      (inHeritage scopes name superclass).map (·.rename f) := by
  cases superclass with
  | none => rfl
  | some use =>
    simp only [inHeritage, Option.map_some, Variable.rename]
    split
    · rfl
    · exact readDistance_rename use.id use.name

abbrev renamePair (f : NodeId → NodeId) (result : Scopes × Distances) : Scopes × Distances :=
  (result.1, result.2.rename f)

mutual

theorem inStmt_rename (s : Stmt) {context : Context} {scopes : Scopes} :
    inStmt context scopes (s.rename f) = (inStmt context scopes s).map (renamePair f) := by
  match s with
  | .expression _ e | .print _ e =>
    simp only [Stmt.rename, inStmt, inExpr_rename e]
    cases inExpr context scopes e <;> rfl
  | .var _ name initializer =>
    simp only [Stmt.rename, inStmt, inOptional_rename initializer]
    cases declare scopes name with
    | error e => rfl
    | ok scopes =>
      simp only [Bind.bind, Except.bind]
      cases inOptional context scopes initializer <;> rfl
  | .block _ body =>
    simp only [Stmt.rename, inStmt, inStmts_rename body]
    cases inStmts context ([] :: scopes) body <;> rfl
  | .branch _ condition yes none | .loop _ condition yes =>
    simp only [Stmt.rename, inStmt, inExpr_rename condition, inStmt_rename yes]
    cases inExpr context scopes condition with
    | error e => rfl
    | ok first =>
      simp only [Bind.bind, Except.bind, Except.map]
      cases inStmt context scopes yes with
      | error e => rfl
      | ok after => simp only [Pure.pure, Except.pure, renamePair, Distances.rename_append]
  | .branch _ condition yes (some no) =>
    simp only [Stmt.rename, inStmt, inExpr_rename condition, inStmt_rename yes, inStmt_rename no]
    cases inExpr context scopes condition with
    | error e => rfl
    | ok first =>
      simp only [Bind.bind, Except.bind, Except.map]
      cases inStmt context scopes yes with
      | error e => rfl
      | ok after =>
        simp only [renamePair]
        cases inStmt context after.1 no with
        | error e => rfl
        | ok last => simp only [Pure.pure, Except.pure, Distances.rename_append]
  | .function decl =>
    simp only [Stmt.rename, inStmt, decl.name_rename]
    cases introduce scopes decl.name with
    | error e => rfl
    | ok scopes =>
      simp only [Bind.bind, Except.bind, inFunction_rename decl]
      cases inFunction ⟨.function, context.enclosingClass⟩ scopes decl <;> rfl
  | .returns _ keyword value =>
    simp only [Stmt.rename, inStmt, inReturned_rename keyword value]
    cases inReturned context scopes keyword value <;> rfl
  | .classDecl _ name superclass methods =>
    have kind : classContext (superclass.map (·.rename f)) = classContext superclass := by
      rw [classContext, Option.isSome_map, classContext]
    have around (scopes : Scopes) :
        methodScopes scopes (superclass.map (·.rename f)) = methodScopes scopes superclass := by
      rw [methodScopes, Option.isSome_map, methodScopes]
    simp only [Stmt.rename, inStmt, inHeritage_rename, kind, around]
    cases introduce scopes name with
    | error e => rfl
    | ok scopes =>
      simp only [Bind.bind, Except.bind]
      cases inHeritage scopes name superclass with
      | error e => rfl
      | ok first =>
        simp only [Except.map, inMethods_rename methods]
        cases inMethods (classContext superclass) (methodScopes scopes superclass) methods with
        | error e => rfl
        | ok others => simp only [Pure.pure, Except.pure, renamePair, Distances.rename_append]

theorem inStmts_rename (body : List Stmt) {context : Context} {scopes : Scopes} :
    inStmts context scopes (stmtsRename f body) =
      (inStmts context scopes body).map (renamePair f) := by
  match body with
  | [] => rfl
  | s :: rest =>
    simp only [stmtsRename, inStmts, inStmt_rename s]
    cases inStmt context scopes s with
    | error e => rfl
    | ok after =>
      simp only [Bind.bind, Except.bind, Except.map, renamePair, inStmts_rename rest]
      cases inStmts context after.1 rest with
      | error e => rfl
      | ok last => simp only [Pure.pure, Except.pure, Distances.rename_append]

theorem inFunction_rename (decl : FunctionDecl) {context : Context} {scopes : Scopes} :
    inFunction context scopes (decl.rename f) =
      (inFunction context scopes decl).map (·.rename f) := by
  match decl with
  | .mk _ _ params body =>
    simp only [FunctionDecl.rename, inFunction]
    cases params.foldlM introduce ([] :: scopes) with
    | error e => rfl
    | ok inner =>
      simp only [Bind.bind, Except.bind, inStmts_rename body]
      cases inStmts context inner body <;> rfl

theorem inMethods_rename (methods : List FunctionDecl) {enclosingClass : ClassContext}
    {scopes : Scopes} :
    inMethods enclosingClass scopes (methodsRename f methods) =
      (inMethods enclosingClass scopes methods).map (·.rename f) := by
  match methods with
  | [] => rfl
  | m :: rest =>
    simp only [methodsRename, inMethods, m.name_rename, inFunction_rename m, inMethods_rename rest]
    exact append_rename _ _

end

end Static

theorem distancesOf_rename (f : NodeId → NodeId) (program : List Stmt) :
    distancesOf (stmtsRename f program) = (distancesOf program).map (·.rename f) := by
  unfold distancesOf
  rw [Static.inStmts_rename]
  cases Static.inStmts _ [] program <;> rfl

end LoxMachine
