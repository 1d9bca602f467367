import LoxMachine.Proofs.Program.Bare
import LoxMachine.Proofs.Program.Renamed
import LoxMachine.Proofs.Recode.Basic

namespace LoxMachine

section Renamed

variable {f : NodeId → NodeId}

mutual

theorem Expr.bare_rename (e : Expr) : (e.rename f).bare = e.bare := by
  match e with
  | .literal _ _ | .read _ | .this _ _ | .super _ _ _ => rfl
  | .assign _ _ inner | .unary _ _ inner | .grouping _ inner | .get _ inner _ =>
    simp only [Expr.rename, Expr.bare, inner.bare_rename]
  | .binary _ left _ right | .logical _ left _ right | .set _ left _ right =>
    simp only [Expr.rename, Expr.bare, left.bare_rename, right.bare_rename]
  | .call _ callee _ arguments =>
    simp only [Expr.rename, Expr.bare, callee.bare_rename, exprsBare_rename arguments]

theorem exprsBare_rename (es : List Expr) : exprsBare (exprsRename f es) = exprsBare es := by
  match es with
  | [] => rfl
  | e :: rest => rw [exprsRename, exprsBare, exprsBare, e.bare_rename, exprsBare_rename rest]

end

theorem optionalBare_rename (e : Option Expr) :
    (e.map (·.rename f)).map Expr.bare = e.map Expr.bare := by
  cases e with
  | none => rfl
  | some e => exact congrArg some e.bare_rename

mutual

theorem Stmt.bare_rename (s : Stmt) : (s.rename f).bare = s.bare := by
  match s with
  | .expression _ e | .print _ e => simp only [Stmt.rename, Stmt.bare, e.bare_rename]
  | .var _ _ value | .returns _ _ value =>
    simp only [Stmt.rename, Stmt.bare, optionalBare_rename value]
  | .block _ body => simp only [Stmt.rename, Stmt.bare, stmtsBare_rename body]
  | .branch _ condition yes none | .loop _ condition yes =>
    simp only [Stmt.rename, Stmt.bare, condition.bare_rename, yes.bare_rename]
  | .branch _ condition yes (some no) =>
    simp only [Stmt.rename, Stmt.bare, condition.bare_rename, yes.bare_rename, no.bare_rename]
  | .function decl => rw [Stmt.rename, Stmt.bare, Stmt.bare, decl.bare_rename]
  | .classDecl _ _ superclass methods =>
    simp only [Stmt.rename, Stmt.bare, methodsBare_rename methods]
    cases superclass <;> rfl

theorem stmtsBare_rename (body : List Stmt) : stmtsBare (stmtsRename f body) = stmtsBare body := by
  match body with
  | [] => rfl
  | s :: rest => rw [stmtsRename, stmtsBare, stmtsBare, s.bare_rename, stmtsBare_rename rest]

theorem FunctionDecl.bare_rename (decl : FunctionDecl) : (decl.rename f).bare = decl.bare := by
  match decl with
  | .mk _ _ _ body => simp only [FunctionDecl.rename, FunctionDecl.bare, stmtsBare_rename body]

theorem methodsBare_rename (methods : List FunctionDecl) :
    methodsBare (methodsRename f methods) = methodsBare methods := by
  match methods with
  | [] => rfl
  | m :: rest => rw [methodsRename, methodsBare, methodsBare, m.bare_rename, methodsBare_rename rest]

end

end Renamed

def Respelling.flat : Respelling := ⟨fun _ => Token.bare, fun _ => Token.bare, fun _ => Token.bare⟩

/-- There are as many numbers as in the other list, and what changes them into the others one by one
makes the trees `alike`. -/
def Redraws (ids others : List NodeId) (alike : (NodeId → NodeId) → Prop) : Prop :=
  ids.length = others.length ∧ ∀ f, ids.map f = others → alike f

namespace Redraws

variable {ids ids' others others' : List NodeId} {id id' : NodeId}
  {alike alike' whole : (NodeId → NodeId) → Prop}

theorem nil (same : ∀ f, whole f) : Redraws [] [] whole := ⟨rfl, fun f _ => same f⟩

theorem both (first : Redraws ids ids' alike) (second : Redraws others others' alike') :
    Redraws (ids ++ others) (ids' ++ others') fun f => alike f ∧ alike' f := by
  refine ⟨by rw [List.length_append, List.length_append, first.1, second.1], fun f same => ?_⟩
  rw [List.map_append] at same
  obtain ⟨left, right⟩ := List.append_inj same (by rw [List.length_map, first.1])
  exact ⟨first.2 f left, second.2 f right⟩

theorem mono (inner : Redraws ids ids' alike) (build : ∀ f, alike f → whole f) :
    Redraws ids ids' whole :=
  ⟨inner.1, fun f same => build f (inner.2 f same)⟩

theorem leaf (build : ∀ f, f id = id' → whole f) : Redraws [id] [id'] whole :=
  ⟨rfl, fun f same => build f (List.singleton_inj.mp same)⟩

theorem node (inner : Redraws ids ids' alike) (build : ∀ f, f id = id' → alike f → whole f) :
    Redraws (ids ++ [id]) (ids' ++ [id']) whole :=
  (inner.both (leaf fun _ here => here)).mono fun f both => build f both.2 both.1

end Redraws

theorem Variable.redraws {use other : Variable} (same : use.bare = other.bare) :
    Redraws [use.id] [other.id] fun f => (use.recode .flat).rename f = other.recode .flat := by
  injection same with _ names
  exact .leaf fun f here => (Variable.mk.injEq ..).mpr ⟨here, names⟩

mutual

theorem Expr.redraws (e other : Expr) (same : e.bare = other.bare) :
    Redraws e.ids other.ids fun f => (e.recode .flat).rename f = other.recode .flat := by
  match e with
  | .literal _ _ =>
    cases other with
    | literal =>
      cases same
      exact .leaf fun f here => congrArg (Expr.literal · _) here
    | _ => cases same
  | .read use =>
    cases other with
    | read other =>
      injection same with uses
      exact (Variable.redraws uses).mono fun f alike => congrArg Expr.read alike
    | _ => cases same
  | .assign _ _ inner =>
    cases other with
    | assign _ _ inner' =>
      injection same with _ names inners
      exact (inner.redraws inner' inners).node fun f here below =>
        (Expr.assign.injEq ..).mpr ⟨here, names, below⟩
    | _ => cases same
  | .unary _ _ inner =>
    cases other with
    | unary _ _ inner' =>
      injection same with _ operators inners
      exact (inner.redraws inner' inners).node fun f here below =>
        (Expr.unary.injEq ..).mpr ⟨here, operators, below⟩
    | _ => cases same
  | .binary _ left _ right =>
    cases other with
    | binary _ left' _ right' =>
      injection same with _ lefts operators rights
      exact ((left.redraws left' lefts).both (right.redraws right' rights)).node fun f here below =>
        (Expr.binary.injEq ..).mpr ⟨here, below.1, operators, below.2⟩
    | _ => cases same
  | .logical _ left _ right =>
    cases other with
    | logical _ left' _ right' =>
      injection same with _ lefts operators rights
      exact ((left.redraws left' lefts).both (right.redraws right' rights)).node fun f here below =>
        (Expr.logical.injEq ..).mpr ⟨here, below.1, operators, below.2⟩
    | _ => cases same
  | .grouping _ inner =>
    cases other with
    | grouping _ inner' =>
      injection same with _ inners
      exact (inner.redraws inner' inners).node fun f here below =>
        (Expr.grouping.injEq ..).mpr ⟨here, below⟩
    | _ => cases same
  | .call _ callee _ arguments =>
    cases other with
    | call _ callee' _ arguments' =>
      injection same with _ callees parens given
      exact ((callee.redraws callee' callees).both (exprs_redraws arguments arguments' given)).node
        fun f here below => (Expr.call.injEq ..).mpr ⟨here, below.1, parens, below.2⟩
    | _ => cases same
  | .get _ object _ =>
    cases other with
    | get _ object' _ =>
      injection same with _ objects names
      exact (object.redraws object' objects).node fun f here below =>
        (Expr.get.injEq ..).mpr ⟨here, below, names⟩
    | _ => cases same
  | .set _ object _ value =>
    cases other with
    | set _ object' _ value' =>
      injection same with _ objects names values
      exact ((value.redraws value' values).both (object.redraws object' objects)).node
        fun f here below => (Expr.set.injEq ..).mpr ⟨here, below.2, names, below.1⟩
    | _ => cases same
  | .this _ _ =>
    cases other with
    | this =>
      injection same with _ keywords
      exact .leaf fun f here => (Expr.this.injEq ..).mpr ⟨here, keywords⟩
    | _ => cases same
  | .super _ _ _ =>
    cases other with
    | super =>
      injection same with _ keywords methods
      exact .leaf fun f here => (Expr.super.injEq ..).mpr ⟨here, keywords, methods⟩
    | _ => cases same

theorem exprs_redraws (es others : List Expr) (same : exprsBare es = exprsBare others) :
    Redraws (exprsIds es) (exprsIds others) fun f =>
      exprsRename f (exprsRecode .flat es) = exprsRecode .flat others := by
  match es with
  | [] =>
    cases others with
    | nil => exact .nil fun _ => rfl
    | cons => cases same
  | e :: rest =>
    cases others with
    | nil => cases same
    | cons other rest' =>
      injection same with first later
      exact ((e.redraws other first).both (exprs_redraws rest rest' later)).mono
        fun f both => (List.cons.injEq ..).mpr both

end

theorem optional_redraws (e other : Option Expr) (same : e.map Expr.bare = other.map Expr.bare) :
    Redraws (optionalIds e) (optionalIds other) fun f =>
      (e.map (·.recode .flat)).map (·.rename f) = other.map (·.recode .flat) := by
  cases e with
  | none =>
    cases other with
    | none => exact .nil fun _ => rfl
    | some => cases same
  | some e =>
    cases other with
    | none => cases same
    | some other =>
      injection same with inner
      exact (e.redraws other inner).mono fun f alike => congrArg some alike

theorem superclass_redraws (use other : Option Variable)
    (same : use.map Variable.bare = other.map Variable.bare) :
    Redraws (use.map (·.id)).toList (other.map (·.id)).toList fun f =>
      (use.map (·.recode .flat)).map (·.rename f) = other.map (·.recode .flat) := by
  cases use with
  | none =>
    cases other with
    | none => exact .nil fun _ => rfl
    | some => cases same
  | some use =>
    cases other with
    | none => cases same
    | some other =>
      injection same with inner
      exact (Variable.redraws inner).mono fun f alike => congrArg some alike

mutual

theorem Stmt.redraws (s other : Stmt) (same : s.bare = other.bare) :
    Redraws s.ids other.ids fun f => (s.recode .flat).rename f = other.recode .flat := by
  match s with
  | .expression _ e =>
    cases other with
    | expression _ e' =>
      injection same with _ inners
      exact (e.redraws e' inners).node fun f here below =>
        (Stmt.expression.injEq ..).mpr ⟨here, below⟩
    | branch _ _ _ no => cases no <;> cases same
    | _ => cases same
  | .print _ e =>
    cases other with
    | print _ e' =>
      injection same with _ inners
      exact (e.redraws e' inners).node fun f here below => (Stmt.print.injEq ..).mpr ⟨here, below⟩
    | branch _ _ _ no => cases no <;> cases same
    | _ => cases same
  | .var _ _ value =>
    cases other with
    | var _ _ value' =>
      injection same with _ names values
      exact (optional_redraws value value' values).node fun f here below =>
        (Stmt.var.injEq ..).mpr ⟨here, names, below⟩
    | branch _ _ _ no => cases no <;> cases same
    | _ => cases same
  | .block _ body =>
    cases other with
    | block _ body' =>
      injection same with _ bodies
      exact (stmts_redraws body body' bodies).node fun f here below =>
        (Stmt.block.injEq ..).mpr ⟨here, below⟩
    | branch _ _ _ no => cases no <;> cases same
    | _ => cases same
  | .branch _ condition yes none =>
    cases other with
    | branch _ condition' yes' no =>
      cases no with
      | none =>
        injection same with _ conditions chosen
        exact ((condition.redraws condition' conditions).both (yes.redraws yes' chosen)).node
          fun f here below => (Stmt.branch.injEq ..).mpr ⟨here, below.1, below.2, rfl⟩
      | some =>
        injection same with _ _ _ absurdly
        cases absurdly
    | _ => cases same
  | .branch _ condition yes (some no) =>
    cases other with
    | branch _ condition' yes' no' =>
      cases no' with
      | none =>
        injection same with _ _ _ absurdly
        cases absurdly
      | some no' =>
        injection same with _ conditions chosen others
        injection others with others
        exact (((condition.redraws condition' conditions).both (yes.redraws yes' chosen)).both
          (no.redraws no' others)).node fun f here below =>
            (Stmt.branch.injEq ..).mpr ⟨here, below.1.1, below.1.2, congrArg some below.2⟩
    | _ => cases same
  | .loop _ condition body =>
    cases other with
    | loop _ condition' body' =>
      injection same with _ conditions bodies
      exact ((condition.redraws condition' conditions).both (body.redraws body' bodies)).node
        fun f here below => (Stmt.loop.injEq ..).mpr ⟨here, below.1, below.2⟩
    | branch _ _ _ no => cases no <;> cases same
    | _ => cases same
  | .function decl =>
    cases other with
    | function decl' =>
      injection same with decls
      exact (decl.redraws decl' decls).mono fun f alike => congrArg Stmt.function alike
    | branch _ _ _ no => cases no <;> cases same
    | _ => cases same
  | .returns _ _ value =>
    cases other with
    | returns _ _ value' =>
      injection same with _ keywords values
      exact (optional_redraws value value' values).node fun f here below =>
        (Stmt.returns.injEq ..).mpr ⟨here, keywords, below⟩
    | branch _ _ _ no => cases no <;> cases same
    | _ => cases same
  | .classDecl _ _ superclass methods =>
    cases other with
    | classDecl _ _ superclass' methods' =>
      injection same with _ names bases declared
      exact ((superclass_redraws superclass superclass' bases).both
        (methods_redraws methods methods' declared)).node fun f here below =>
          (Stmt.classDecl.injEq ..).mpr ⟨here, names, below.1, below.2⟩
    | branch _ _ _ no => cases no <;> cases same
    | _ => cases same

theorem stmts_redraws (body others : List Stmt) (same : stmtsBare body = stmtsBare others) :
    Redraws (stmtsIds body) (stmtsIds others) fun f =>
      stmtsRename f (stmtsRecode .flat body) = stmtsRecode .flat others := by
  match body with
  | [] =>
    cases others with
    | nil => exact .nil fun _ => rfl
    | cons => cases same
  | s :: rest =>
    cases others with
    | nil => cases same
    | cons other rest' =>
      injection same with first later
      exact ((s.redraws other first).both (stmts_redraws rest rest' later)).mono
        fun f both => (List.cons.injEq ..).mpr both

theorem FunctionDecl.redraws (decl other : FunctionDecl) (same : decl.bare = other.bare) :
    Redraws decl.ids other.ids fun f => (decl.recode .flat).rename f = other.recode .flat := by
  match decl, other with
  | .mk _ _ _ body, .mk _ _ _ body' =>
    injection same with _ names params bodies
    exact (stmts_redraws body body' bodies).node fun f here below =>
      (FunctionDecl.mk.injEq ..).mpr ⟨here, names, params, below⟩

theorem methods_redraws (methods others : List FunctionDecl)
    (same : methodsBare methods = methodsBare others) :
    Redraws (methodsIds methods) (methodsIds others) fun f =>
      methodsRename f (methodsRecode .flat methods) = methodsRecode .flat others := by
  match methods with
  | [] =>
    cases others with
    | nil => exact .nil fun _ => rfl
    | cons => cases same
  | m :: rest =>
    cases others with
    | nil => cases same
    | cons other rest' =>
      injection same with first later
      exact ((m.redraws other first).both (methods_redraws rest rest' later)).mono
        fun f both => (List.cons.injEq ..).mpr both

end

end LoxMachine
