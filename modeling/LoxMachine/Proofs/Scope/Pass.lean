import LoxMachine.Proofs.Scope.Fits

namespace LoxMachine.Static

theorem bind_eq_ok {ε α β : Type} {result : Except ε α} {next : α → Except ε β} {b : β} :
    (result >>= next) = .ok b ↔ ∃ a, result = .ok a ∧ next a = .ok b := by
  cases result <;> simp [Bind.bind, Except.bind]

theorem pure_eq_ok {ε α : Type} {a b : α} : (pure a : Except ε α) = .ok b ↔ a = b := by
  simp [Pure.pure, Except.pure]

theorem scopes_of_declare {levels : List Level} {name : Token} {scopes : Scopes}
    (declared : declare (scopesOf levels) name = .ok scopes) :
    scopes = scopesOf (announce levels name) ∧
      ∀ level ∈ levels.head?, level.table.contains name.lexeme = false := by
  cases levels with
  | nil =>
    cases declared
    exact ⟨rfl, by simp⟩
  | cons innermost outer =>
    simp only [scopesOf, List.map_cons, declare] at declared
    split at declared
    · cases declared
    · rename_i free
      cases declared
      refine ⟨rfl, ?_⟩
      rintro _ ⟨⟩
      simpa using free

theorem scopesOf_add (levels : List Level) (name : Token) :
    define (scopesOf (announce levels name)) name = scopesOf (add levels name) := by
  cases levels <;> rfl

theorem scopes_of_introduce {levels : List Level} {name : Token} {scopes : Scopes}
    (introduced : introduce (scopesOf levels) name = .ok scopes) :
    scopes = scopesOf (add levels name) ∧
      ∀ level ∈ levels.head?, level.table.contains name.lexeme = false := by
  simp only [introduce, bind_eq_ok, pure_eq_ok] at introduced
  obtain ⟨inner, declared, rfl⟩ := introduced
  obtain ⟨rfl, fresh⟩ := scopes_of_declare declared
  exact ⟨scopesOf_add levels name, fresh⟩

theorem scopes_of_parameters (levels : List Level) {params : List Token} {scopes : Scopes}
    (introduced : params.foldlM introduce (scopesOf levels) = .ok scopes) :
    scopes = scopesOf (addAll levels params) := by
  induction params generalizing levels with
  | nil => exact (pure_eq_ok.mp introduced).symm
  | cons param rest ih =>
    rw [List.foldlM_cons, bind_eq_ok] at introduced
    obtain ⟨inner, first, others⟩ := introduced
    obtain ⟨rfl, _⟩ := scopes_of_introduce first
    exact ih _ others

theorem scopesOf_methods (levels : List Level) (superclass : Option Variable) :
    methodScopes (scopesOf levels) superclass =
      scopesOf (receiverLevel :: classLevels levels superclass) := by
  cases superclass <;> rfl

theorem distances_of_read {levels : List Level} {id : NodeId} {name : Token} {ds : Distances}
    (read : readDistance (scopesOf levels) id name = .ok ds) :
    ds = distance (scopesOf levels) id name := by
  cases levels with
  | nil =>
    cases read
    rfl
  | cons innermost outer =>
    simp only [scopesOf, List.map_cons, readDistance] at read
    split at read
    · cases read
    · cases read
      rfl

abbrev distancesAmong (occurrences : List Occurrence) : Distances :=
  occurrences.flatMap Occurrence.distance

mutual

theorem distances_of_inExpr {context : Context} {levels : List Level} (e : Expr) {ds : Distances}
    (checked : inExpr context (scopesOf levels) e = .ok ds) :
    ds = distancesAmong (e.occurrences levels) := by
  match e with
  | .literal _ _ =>
    cases checked
    rfl
  | .read use =>
    rw [distances_of_read checked]
    simp [Expr.occurrences, Occurrence.distance]
  | .assign id name value =>
    simp only [inExpr, bind_eq_ok, pure_eq_ok] at checked
    obtain ⟨inner, first, rfl⟩ := checked
    rw [distances_of_inExpr value first]
    simp [Expr.occurrences, Occurrence.distance]
  | .unary _ _ right =>
    simpa [Expr.occurrences, Occurrence.distance] using distances_of_inExpr right checked
  | .binary _ left _ right | .logical _ left _ right =>
    simp only [inExpr, bind_eq_ok, pure_eq_ok] at checked
    obtain ⟨first, one, second, other, rfl⟩ := checked
    rw [distances_of_inExpr left one, distances_of_inExpr right other]
    simp [Expr.occurrences, Occurrence.distance]
  | .grouping _ inner => exact distances_of_inExpr inner checked
  | .call _ callee _ arguments =>
    simp only [inExpr, bind_eq_ok, pure_eq_ok] at checked
    obtain ⟨first, one, others, rest, rfl⟩ := checked
    rw [distances_of_inExpr callee one, distances_of_inExprs arguments rest]
    simp [Expr.occurrences, Occurrence.distance]
  | .get _ object _ =>
    simpa [Expr.occurrences, Occurrence.distance] using distances_of_inExpr object checked
  | .set _ object _ value =>
    simp only [inExpr, bind_eq_ok, pure_eq_ok] at checked
    obtain ⟨first, one, second, other, rfl⟩ := checked
    rw [distances_of_inExpr value one, distances_of_inExpr object other]
    simp [Expr.occurrences, Occurrence.distance]
  | .this id keyword =>
    simp only [inExpr] at checked
    split at checked
    · cases checked
    · rw [distances_of_read checked]
      simp [Expr.occurrences, Occurrence.distance]
  | .super id keyword method =>
    simp only [inExpr] at checked
    split at checked
    · cases checked
    · cases checked
    · cases checked
      simp [Expr.occurrences, Occurrence.distance]

theorem distances_of_inExprs {context : Context} {levels : List Level} (es : List Expr)
    {ds : Distances} (checked : inExprs context (scopesOf levels) es = .ok ds) :
    ds = distancesAmong (exprsOccurrences levels es) := by
  match es with
  | [] =>
    cases checked
    rfl
  | e :: rest =>
    simp only [inExprs, bind_eq_ok, pure_eq_ok] at checked
    obtain ⟨first, one, others, more, rfl⟩ := checked
    rw [distances_of_inExpr e one, distances_of_inExprs rest more]
    simp [exprsOccurrences]

end

theorem distances_of_inOptional {context : Context} {levels : List Level} {e : Option Expr}
    {ds : Distances} (checked : inOptional context (scopesOf levels) e = .ok ds) :
    ds = distancesAmong (optionalOccurrences levels e) := by
  cases e with
  | none =>
    cases checked
    rfl
  | some e => exact distances_of_inExpr e checked

theorem distances_of_inReturned {context : Context} {levels : List Level} {keyword : Token}
    {value : Option Expr} {ds : Distances}
    (checked : inReturned context (scopesOf levels) keyword value = .ok ds) :
    ds = distancesAmong (optionalOccurrences levels value) := by
  unfold inReturned at checked
  split at checked
  · cases checked
  · cases value with
    | none =>
      cases checked
      rfl
    | some e =>
      simp only at checked
      split at checked
      · cases checked
      · exact distances_of_inExpr e checked

theorem distances_of_inHeritage {levels : List Level} {name : Token} {superclass : Option Variable}
    {ds : Distances} (checked : inHeritage (scopesOf levels) name superclass = .ok ds) :
    ds = distancesAmong (heritageOccurrences levels superclass) := by
  cases superclass with
  | none =>
    cases checked
    rfl
  | some use =>
    simp only [inHeritage] at checked
    split at checked
    · cases checked
    · rw [distances_of_read checked]
      simp [heritageOccurrences, Occurrence.distance]

mutual

theorem distances_of_inStmt {context : Context} {levels : List Level} (s : Stmt)
    {result : Scopes × Distances} (checked : inStmt context (scopesOf levels) s = .ok result) :
    result = (scopesOf (addAll levels s.declared), distancesAmong (s.occurrences levels)) := by
  match s with
  | .expression _ e | .print _ e =>
    simp only [inStmt, bind_eq_ok, pure_eq_ok] at checked
    obtain ⟨ds, inner, rfl⟩ := checked
    rw [distances_of_inExpr e inner]
    rfl
  | .var _ name initializer =>
    simp only [inStmt, bind_eq_ok, pure_eq_ok] at checked
    obtain ⟨scopes, declared, ds, inner, rfl⟩ := checked
    obtain ⟨rfl, _⟩ := scopes_of_declare declared
    rw [distances_of_inOptional inner, scopesOf_add]
    rfl
  | .block id body =>
    simp only [inStmt, bind_eq_ok, pure_eq_ok] at checked
    obtain ⟨⟨scopes, ds⟩, inner, rfl⟩ := checked
    cases distances_of_inStmts (blockLevels levels id body) body inner
    simp [Stmt.occurrences, Stmt.declared, Occurrence.distance, addAll]
  | .branch _ condition yes none =>
    simp only [inStmt, bind_eq_ok, pure_eq_ok] at checked
    obtain ⟨first, one, ⟨scopes, second⟩, two, rfl⟩ := checked
    cases distances_of_inStmt yes two
    rw [distances_of_inExpr condition one]
    simp [Stmt.occurrences, Stmt.declared]
  | .branch _ condition yes (some no) =>
    simp only [inStmt, bind_eq_ok, pure_eq_ok] at checked
    obtain ⟨first, one, ⟨scopes, second⟩, two, ⟨after, third⟩, three, rfl⟩ := checked
    cases distances_of_inStmt yes two
    cases distances_of_inStmt no three
    rw [distances_of_inExpr condition one]
    simp [Stmt.occurrences, Stmt.declared, addAll]
  | .loop _ condition body =>
    simp only [inStmt, bind_eq_ok, pure_eq_ok] at checked
    obtain ⟨first, one, ⟨scopes, second⟩, two, rfl⟩ := checked
    cases distances_of_inStmt body two
    rw [distances_of_inExpr condition one]
    simp [Stmt.occurrences, Stmt.declared]
  | .function decl =>
    simp only [inStmt, bind_eq_ok, pure_eq_ok] at checked
    obtain ⟨scopes, introduced, ds, inner, rfl⟩ := checked
    obtain ⟨rfl, _⟩ := scopes_of_introduce introduced
    rw [distances_of_inFunction decl inner]
    rfl
  | .returns _ keyword value =>
    simp only [inStmt, bind_eq_ok, pure_eq_ok] at checked
    obtain ⟨ds, inner, rfl⟩ := checked
    rw [distances_of_inReturned inner]
    simp [Stmt.occurrences, Stmt.declared, Occurrence.distance, addAll]
  | .classDecl _ name superclass methods =>
    simp only [inStmt, bind_eq_ok, pure_eq_ok] at checked
    obtain ⟨scopes, introduced, first, one, others, more, rfl⟩ := checked
    obtain ⟨rfl, _⟩ := scopes_of_introduce introduced
    rw [scopesOf_methods] at more
    rw [distances_of_inHeritage one, distances_of_inMethods methods more]
    simp [Stmt.occurrences, Stmt.declared, Occurrence.distance, addAll]

theorem distances_of_inStmts {context : Context} (levels : List Level) (body : List Stmt)
    {result : Scopes × Distances} (checked : inStmts context (scopesOf levels) body = .ok result) :
    result = (scopesOf (addAll levels (body.flatMap Stmt.declared)),
      distancesAmong (stmtsOccurrences levels body)) := by
  match body with
  | [] =>
    cases checked
    rfl
  | s :: rest =>
    simp only [inStmts, bind_eq_ok, pure_eq_ok] at checked
    obtain ⟨⟨scopes, first⟩, one, ⟨after, others⟩, more, rfl⟩ := checked
    cases distances_of_inStmt s one
    cases distances_of_inStmts _ rest more
    simp [stmtsOccurrences, addAll]

theorem distances_of_inFunction {context : Context} {levels : List Level} (decl : FunctionDecl)
    {ds : Distances} (checked : inFunction context (scopesOf levels) decl = .ok ds) :
    ds = distancesAmong (decl.occurrences levels) := by
  match decl with
  | .mk id _ params body =>
    simp only [inFunction, bind_eq_ok, pure_eq_ok] at checked
    obtain ⟨scopes, introduced, ⟨after, distances⟩, inner, rfl⟩ := checked
    have same := scopes_of_parameters (⟨functionOrigin id params body, []⟩ :: levels) introduced
    subst same
    cases distances_of_inStmts _ body inner
    simp [FunctionDecl.occurrences, functionLevels, List.flatMap_map, Occurrence.distance]

theorem distances_of_inMethods {enclosingClass : ClassContext} {levels : List Level}
    (methods : List FunctionDecl) {ds : Distances}
    (checked : inMethods enclosingClass (scopesOf levels) methods = .ok ds) :
    ds = distancesAmong (methodsOccurrences levels methods) := by
  match methods with
  | [] =>
    cases checked
    rfl
  | m :: rest =>
    simp only [inMethods, bind_eq_ok, pure_eq_ok] at checked
    obtain ⟨first, one, others, more, rfl⟩ := checked
    rw [distances_of_inFunction m one, distances_of_inMethods rest more]
    simp [methodsOccurrences]

end

theorem distances_eq_among {program : List Stmt} {ds : Distances}
    (accepted : distancesOf program = .ok ds) : ds = distancesAmong (occurrencesOf program) := by
  simp only [distancesOf, bind_eq_ok, pure_eq_ok] at accepted
  obtain ⟨⟨scopes, distances⟩, checked, rfl⟩ := accepted
  cases distances_of_inStmts [] program checked
  rfl

theorem inStmts_append {context : Context} {scopes mid after : Scopes} {body others : List Stmt}
    {ds es : Distances} (one : inStmts context scopes body = .ok (mid, ds))
    (two : inStmts context mid others = .ok (after, es)) :
    inStmts context scopes (body ++ others) = .ok (after, ds ++ es) := by
  induction body generalizing scopes ds with
  | nil =>
    cases one
    exact two
  | cons s rest ih =>
    simp only [inStmts, bind_eq_ok, pure_eq_ok] at one
    obtain ⟨⟨inner, first⟩, head, ⟨last, more⟩, tail, ⟨⟩⟩ := one
    rw [List.cons_append, List.append_assoc]
    simp only [inStmts, bind_eq_ok, pure_eq_ok]
    exact ⟨_, head, _, ih tail, rfl⟩

theorem distancesOf_append {program other : List Stmt} {ds es : Distances}
    (one : distancesOf program = .ok ds) (two : distancesOf other = .ok es) :
    distancesOf (program ++ other) = .ok (ds ++ es) := by
  simp only [distancesOf, bind_eq_ok, pure_eq_ok] at one two ⊢
  obtain ⟨⟨mid, first⟩, one, rfl⟩ := one
  obtain ⟨⟨after, second⟩, two, rfl⟩ := two
  have outermost : mid = [] := by
    cases distances_of_inStmts [] program one
    rw [addAll_nil]
    rfl
  subst outermost
  exact ⟨_, inStmts_append one two, rfl⟩

theorem locate_cons (level : Level) (outer : List Level) (name : String) :
    locate (level :: outer) name =
      if level.table.contains name then some 0 else (locate outer name).map (· + 1) := by
  simp only [locate, List.findIdx?_cons]

theorem locate_stage (levels : List Level) {name query : String} {s : Stage}
    (other : query ≠ name) : locate (stage levels name s) query = locate levels query := by
  cases levels with
  | nil => rfl
  | cons innermost outer => simp [stage, locate_cons, Table.contains_put, other]

theorem Knows.push {context : Context} {levels : List Level} {level : Level}
    (knows : Knows context levels) (noObject : level.table.contains "this" = false)
    (noClass : level.table.contains "super" = false) : Knows context (level :: levels) := by
  constructor
  · intro inside
    have known := knows.receiver inside
    simp only [KnowsReceiver, locate_cons, noObject] at known ⊢
    simpa using known
  · intro inside
    obtain ⟨d, found, object⟩ := knows.heritage inside
    refine ⟨d + 1, ?_, ?_⟩
    · simp [locate_cons, noClass, found]
    · simp [locate_cons, noObject, object]

theorem Knows.stage {context : Context} {levels : List Level} {name : String} {s : Stage}
    (knows : Knows context levels) (noObject : name ≠ "this") (noClass : name ≠ "super") :
    Knows context (stage levels name s) := by
  constructor
  · intro inside
    have known := knows.receiver inside
    unfold KnowsReceiver at known ⊢
    rwa [locate_stage levels noObject.symm]
  · intro inside
    obtain ⟨d, found, object⟩ := knows.heritage inside
    exact ⟨d, (locate_stage levels noClass.symm).trans found,
      (locate_stage levels noObject.symm).trans object⟩

theorem Knows.announce {context : Context} {levels : List Level} {name : Token}
    (knows : Knows context levels) (ordinary : name.Ordinary) :
    Knows context (announce levels name) :=
  knows.stage ordinary.1 ordinary.2

theorem Knows.add {context : Context} {levels : List Level} {name : Token}
    (knows : Knows context levels) (ordinary : name.Ordinary) : Knows context (add levels name) :=
  (knows.announce ordinary).stage ordinary.1 ordinary.2

theorem Knows.addAll {context : Context} {levels : List Level} {names : List Token}
    (knows : Knows context levels) (ordinary : ∀ name ∈ names, name.Ordinary) :
    Knows context (addAll levels names) := by
  induction names generalizing levels with
  | nil => exact knows
  | cons name rest ih =>
    exact ih (knows.add (ordinary name List.mem_cons_self))
      fun other member => ordinary other (List.mem_cons_of_mem _ member)

theorem Knows.methods (kind : FunctionContext) (levels : List Level)
    (superclass : Option Variable) :
    Knows ⟨kind, classContext superclass⟩ (receiverLevel :: classLevels levels superclass) := by
  constructor
  · intro _
    rfl
  · intro derived
    cases superclass with
    | none => cases derived
    | some use => exact ⟨0, rfl, rfl⟩

end LoxMachine.Static
