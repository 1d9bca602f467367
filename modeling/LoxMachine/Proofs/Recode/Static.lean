import LoxMachine.Proofs.Recode.Machine
import LoxMachine.Proofs.Scope.Places

namespace LoxMachine.Static

variable {ϕ : Recoding} {G : Occurrence → Prop}

def levelsRecode (ϕ : Recoding) (levels : List Level) : List Level :=
  levels.map fun level => ⟨level.origin, level.table.recode (ϕ.bound level.origin) id⟩

theorem locate_recode {levels : List Level} {name renamed : String}
    (near : ∀ (d : Nat) (level : Level), levels[d]? = some level →
      (∀ k < d, ∀ inner : Level, levels[k]? = some inner → inner.table.contains name = false) →
      (level.table.recode (ϕ.bound level.origin) id).get? renamed = level.table.get? name) :
    locate (levelsRecode ϕ levels) renamed = locate levels name := by
  induction levels with
  | nil => rfl
  | cons level outer ih =>
    have here := near 0 level rfl fun k absurdly => absurd absurdly (Nat.not_lt_zero k)
    change locate (⟨level.origin, level.table.recode (ϕ.bound level.origin) id⟩ ::
      levelsRecode ϕ outer) renamed = _
    rw [locate_cons, locate_cons, Table.contains, Table.contains, here]
    cases member : (level.table.get? name).isSome with
    | true => rfl
    | false =>
      rw [ih]
      intro d further found before
      refine near (d + 1) further found fun k sooner inner known => ?_
      cases k with
      | zero =>
        cases known
        exact member
      | succ k => exact before k (Nat.lt_of_succ_lt_succ sooner) inner known

theorem distance_recode (respects : ϕ.Respects G) {levels : List Level} {id : NodeId} {name : Token}
    (known : G (.use id name levels)) :
    distance (scopesOf (levelsRecode ϕ levels)) id (ϕ.use id name) =
      distance (scopesOf levels) id name := by
  rw [distance_eq, distance_eq, locate_recode (respects.near id name levels known)]

theorem readDistance_recode (respects : ϕ.Respects G) {levels : List Level} {id : NodeId}
    {name : Token} {ds : Distances}
    (known : G (.use id name levels)) (read : readDistance (scopesOf levels) id name = .ok ds) :
    readDistance (scopesOf (levelsRecode ϕ levels)) id (ϕ.use id name) = .ok ds := by
  have same := distance_recode respects known
  cases levels with
  | nil => exact read
  | cons level outer =>
    have here := respects.near id name _ known 0 level rfl
      fun k absurdly => absurd absurdly (Nat.not_lt_zero k)
    simp only [scopesOf, levelsRecode, List.map_cons, readDistance] at read same ⊢
    rw [here]
    split
    · rename_i blocked
      rw [if_pos blocked] at read
      cases read
    · rename_i free
      rw [if_neg free] at read
      rw [same]
      exact read

mutual

theorem inExpr_recode (respects : ϕ.Respects G) {context : Context} {levels : List Level}
    (e : Expr) {ds : Distances}
    (checked : inExpr context (scopesOf levels) e = .ok ds)
    (all : ∀ o ∈ e.occurrences levels, G o) :
    inExpr context (scopesOf (levelsRecode ϕ levels)) (e.recode ϕ) = .ok ds := by
  match e with
  | .literal _ _ => exact checked
  | .read use =>
    exact readDistance_recode respects (all (.use use.id use.name levels) List.mem_cons_self) checked
  | .assign id name value =>
    simp only [Expr.recode, inExpr, bind_eq_ok, pure_eq_ok] at checked ⊢
    obtain ⟨inner, first, rfl⟩ := checked
    simp only [Expr.occurrences, List.forall_mem_append] at all
    refine ⟨inner, inExpr_recode respects value first all.1, ?_⟩
    rw [distance_recode respects (all.2 _ (by simp))]
  | .unary id operator right =>
    simp only [Expr.occurrences, List.forall_mem_cons] at all
    exact inExpr_recode respects right checked all.2
  | .binary id left operator right | .logical id left operator right =>
    simp only [Expr.recode, inExpr, bind_eq_ok, pure_eq_ok] at checked ⊢
    obtain ⟨first, one, second, two, rfl⟩ := checked
    simp only [Expr.occurrences, List.forall_mem_cons, List.forall_mem_append] at all
    exact ⟨first, inExpr_recode respects left one all.2.1, second,
      inExpr_recode respects right two all.2.2, rfl⟩
  | .grouping _ inner => exact inExpr_recode respects inner checked all
  | .call id callee paren arguments =>
    simp only [Expr.recode, inExpr, bind_eq_ok, pure_eq_ok] at checked ⊢
    obtain ⟨first, one, others, rest, rfl⟩ := checked
    simp only [Expr.occurrences, List.forall_mem_cons, List.forall_mem_append] at all
    exact ⟨first, inExpr_recode respects callee one all.2.1, others,
      inExprs_recode respects arguments rest all.2.2, rfl⟩
  | .get id object name =>
    simp only [Expr.occurrences, List.forall_mem_cons] at all
    exact inExpr_recode respects object checked all.2
  | .set id object name value =>
    simp only [Expr.recode, inExpr, bind_eq_ok, pure_eq_ok] at checked ⊢
    obtain ⟨first, one, second, two, rfl⟩ := checked
    simp only [Expr.occurrences, List.forall_mem_cons, List.forall_mem_append] at all
    exact ⟨first, inExpr_recode respects value one all.2.1, second,
      inExpr_recode respects object two all.2.2, rfl⟩
  | .this id keyword =>
    simp only [Expr.recode, inExpr] at checked ⊢
    split
    · rename_i outside
      rw [if_pos outside] at checked
      cases checked
    · rename_i inside
      rw [if_neg inside] at checked
      exact readDistance_recode respects (all _ (by simp [Expr.occurrences])) checked
  | .super id keyword method =>
    simp only [Expr.recode, inExpr] at checked ⊢
    cases kind : context.enclosingClass with
    | outside => simp only [kind, reduceCtorEq] at checked
    | plain => simp only [kind, reduceCtorEq] at checked
    | derived =>
      simp only [kind] at checked
      rw [distance_recode respects (all _ (by simp [Expr.occurrences]))]
      exact checked

theorem inExprs_recode (respects : ϕ.Respects G) {context : Context} {levels : List Level}
    (es : List Expr) {ds : Distances}
    (checked : inExprs context (scopesOf levels) es = .ok ds)
    (all : ∀ o ∈ exprsOccurrences levels es, G o) :
    inExprs context (scopesOf (levelsRecode ϕ levels)) (exprsRecode ϕ es) = .ok ds := by
  match es with
  | [] => exact checked
  | e :: rest =>
    simp only [exprsRecode, inExprs, bind_eq_ok, pure_eq_ok] at checked ⊢
    obtain ⟨first, one, others, more, rfl⟩ := checked
    simp only [exprsOccurrences, List.forall_mem_append] at all
    exact ⟨first, inExpr_recode respects e one all.1, others, inExprs_recode respects rest more all.2, rfl⟩

end

theorem isNil_recode (e : Expr) : isNil (e.recode ϕ) = isNil e := by
  cases e <;> rfl

theorem inOptional_recode (respects : ϕ.Respects G) {context : Context} {levels : List Level}
    {e : Option Expr} {ds : Distances} (checked : inOptional context (scopesOf levels) e = .ok ds)
    (all : ∀ o ∈ optionalOccurrences levels e, G o) :
    inOptional context (scopesOf (levelsRecode ϕ levels)) (e.map (·.recode ϕ)) = .ok ds := by
  cases e with
  | none => exact checked
  | some e => exact inExpr_recode respects e checked all

theorem inReturned_recode (respects : ϕ.Respects G) {context : Context} {levels : List Level}
    {keyword renamed : Token} {value : Option Expr} {ds : Distances}
    (checked : inReturned context (scopesOf levels) keyword value = .ok ds)
    (all : ∀ o ∈ optionalOccurrences levels value, G o) :
    inReturned context (scopesOf (levelsRecode ϕ levels)) renamed (value.map (·.recode ϕ)) =
      .ok ds := by
  unfold inReturned at checked ⊢
  by_cases outside : context.function = .topLevel
  · simp only [outside, ↓reduceIte, reduceCtorEq] at checked
  · simp only [outside, ↓reduceIte] at checked ⊢
    cases value with
    | none => exact checked
    | some e =>
      simp only [Option.map_some, isNil_recode] at checked ⊢
      split
      · rename_i given
        rw [if_pos given] at checked
        cases checked
      · rename_i free
        rw [if_neg free] at checked
        exact inExpr_recode respects e checked all

/-- A class that does not extend itself does not with new names either. -/
theorem inHeritage_recode (respects : ϕ.Respects G) {levels : List Level} {name renamed : Token}
    {superclass : Option Variable} {ds : Distances}
    (named : ∀ level ∈ levels.head?, name.lexeme ∈ level.origin.names)
    (declared : Declared levels) (here : ∀ level ∈ levels.head?, level.table.contains name.lexeme = true)
    (spelled : ϕ.bound (originOf levels) name.lexeme = name.lexeme)
    (lexeme : renamed.lexeme = name.lexeme)
    (checked : inHeritage (scopesOf levels) name superclass = .ok ds)
    (all : ∀ o ∈ heritageOccurrences levels superclass, G o) :
    inHeritage (scopesOf (levelsRecode ϕ levels)) renamed (superclass.map (·.recode ϕ)) =
      .ok ds := by
  cases superclass with
  | none => exact checked
  | some use =>
    have known : G (.use use.id use.name levels) := all _ List.mem_cons_self
    simp only [inHeritage, Option.map_some, Variable.recode] at checked ⊢
    split at checked
    · cases checked
    · rename_i other
      rw [if_neg]
      · exact readDistance_recode respects known checked
      · intro same
        apply other
        rw [lexeme] at same
        cases levels with
        | nil =>
          rw [respects.missing use.id use.name [] known rfl] at same
          exact same
        | cons level outer =>
          have found := respects.near use.id use.name _ known 0 level rfl
            fun k absurdly => absurd absurdly (Nat.not_lt_zero k)
          have own := declared level List.mem_cons_self
          have kept : (level.table.recode (ϕ.bound level.origin) id).get?
              (ϕ.bound level.origin name.lexeme) = (level.table.get? name.lexeme).map id :=
            Table.get?_recode fun query member equal =>
              ϕ.injective level.origin query (own query member) _ (named level rfl) equal
          have spelled : ϕ.bound level.origin name.lexeme = name.lexeme := spelled
          rw [spelled, ← same, found] at kept
          have present : level.table.contains use.name.lexeme = true := by
            rw [Table.contains, kept, Option.isSome_map, same]
            exact here level rfl
          have located : locate (level :: outer) use.name.lexeme = some 0 := by
            rw [locate_cons, if_pos present]
          have lexeme := respects.found use.id use.name _ 0 level known located rfl
          rw [same] at lexeme
          exact ϕ.injective level.origin _ (own _ present) _ (named level rfl)
            (lexeme.symm.trans spelled.symm)

theorem declare_recode {levels : List Level} {name renamed : Token} {scopes : Scopes}
    (declared : Declared levels) (named : ∀ level ∈ levels.head?, name.lexeme ∈ level.origin.names)
    (lexeme : renamed.lexeme = ϕ.bound (originOf levels) name.lexeme)
    (checked : declare (scopesOf levels) name = .ok scopes) :
    declare (scopesOf (levelsRecode ϕ levels)) renamed =
      .ok (scopesOf (levelsRecode ϕ (announce levels name))) := by
  have fresh := (scopes_of_declare checked).2
  cases levels with
  | nil => rfl
  | cons level outer =>
    have apart : ∀ query, level.table.contains query = true →
        ϕ.bound level.origin query = ϕ.bound level.origin name.lexeme → query = name.lexeme :=
      fun query member equal => ϕ.injective level.origin query
        (declared level List.mem_cons_self query member) _ (named level rfl) equal
    have lexeme : renamed.lexeme = ϕ.bound level.origin name.lexeme := lexeme
    have absent : (level.table.recode (ϕ.bound level.origin) id).contains renamed.lexeme = false := by
      have found : (level.table.recode (ϕ.bound level.origin) id).get?
          (ϕ.bound level.origin name.lexeme) = (level.table.get? name.lexeme).map id :=
        Table.get?_recode apart
      rw [Table.contains, lexeme, found, Option.isSome_map]
      exact fresh level rfl
    have put : (level.table.recode (ϕ.bound level.origin) id).put
        (ϕ.bound level.origin name.lexeme) Stage.declared =
        (level.table.put name.lexeme .declared).recode (ϕ.bound level.origin) id :=
      Table.put_recode Stage.declared apart
    simp only [scopesOf, levelsRecode, List.map_cons, declare, absent, Bool.false_eq_true,
      ↓reduceIte, announce, stage]
    rw [lexeme, put]

theorem define_recode {levels : List Level} {name renamed : Token}
    (declared : Declared (announce levels name))
    (named : ∀ level ∈ levels.head?, name.lexeme ∈ level.origin.names)
    (lexeme : renamed.lexeme = ϕ.bound (originOf levels) name.lexeme) :
    define (scopesOf (levelsRecode ϕ (announce levels name))) renamed =
      scopesOf (levelsRecode ϕ (add levels name)) := by
  cases levels with
  | nil => rfl
  | cons level outer =>
    have apart : ∀ query, (level.table.put name.lexeme Stage.declared).contains query = true →
        ϕ.bound level.origin query = ϕ.bound level.origin name.lexeme → query = name.lexeme :=
      fun query member equal => ϕ.injective level.origin query
        (declared _ List.mem_cons_self query member) _ (named level rfl) equal
    have put : ((level.table.put name.lexeme Stage.declared).recode (ϕ.bound level.origin) id).put
        (ϕ.bound level.origin name.lexeme) Stage.defined =
        ((level.table.put name.lexeme .declared).put name.lexeme .defined).recode
          (ϕ.bound level.origin) id :=
      Table.put_recode Stage.defined apart
    have lexeme : renamed.lexeme = ϕ.bound level.origin name.lexeme := lexeme
    simp only [scopesOf, levelsRecode, List.map_cons, announce, stage, define, add]
    rw [lexeme, put]

theorem introduce_recode {levels : List Level} {name renamed : Token} {scopes : Scopes}
    (declared : Declared levels) (named : ∀ level ∈ levels.head?, name.lexeme ∈ level.origin.names)
    (lexeme : renamed.lexeme = ϕ.bound (originOf levels) name.lexeme)
    (checked : introduce (scopesOf levels) name = .ok scopes) :
    introduce (scopesOf (levelsRecode ϕ levels)) renamed =
      .ok (scopesOf (levelsRecode ϕ (add levels name))) := by
  simp only [introduce, bind_eq_ok, pure_eq_ok] at checked ⊢
  obtain ⟨inner, first, _⟩ := checked
  exact ⟨_, declare_recode declared named lexeme first,
    define_recode (declared.stage named .declared) named lexeme⟩

theorem parameters_recode {levels : List Level} {params : List Token} {scopes : Scopes}
    (renamed : Token → Token) (declared : Declared levels) (covers : Covers levels params)
    (lexemes : ∀ param ∈ params, (renamed param).lexeme = ϕ.bound (originOf levels) param.lexeme)
    (checked : params.foldlM introduce (scopesOf levels) = .ok scopes) :
    (params.map renamed).foldlM introduce (scopesOf (levelsRecode ϕ levels)) =
      .ok (scopesOf (levelsRecode ϕ (addAll levels params))) := by
  induction params generalizing levels scopes with
  | nil => rfl
  | cons param rest ih =>
    rw [List.foldlM_cons, bind_eq_ok] at checked
    obtain ⟨inner, first, others⟩ := checked
    obtain ⟨rfl, _⟩ := scopes_of_introduce first
    have own : Covers levels [param] := fun level member name here =>
      covers level member name (List.mem_cons.mpr (.inl (List.mem_singleton.mp here)))
    have named : ∀ level ∈ levels.head?, param.lexeme ∈ level.origin.names :=
      fun level member => own level member param (List.mem_singleton_self param)
    have later : Covers levels rest := fun level member name here =>
      covers level member name (List.mem_cons_of_mem _ here)
    rw [List.map_cons, List.foldlM_cons, bind_eq_ok]
    refine ⟨_, introduce_recode declared named (lexemes param List.mem_cons_self) first, ?_⟩
    refine ih (declared.add own) later.stage.stage (fun other member => ?_) others
    rw [add, announce, originOf_stage, originOf_stage]
    exact lexemes other (List.mem_cons_of_mem _ member)

theorem named_of_covers {levels : List Level} {name : Token} (covers : Covers levels [name]) :
    ∀ level ∈ levels.head?, name.lexeme ∈ level.origin.names :=
  fun level member => covers level member name (List.mem_singleton_self name)

theorem Declared.methods {levels : List Level} (declared : Declared levels)
    (superclass : Option Variable) : Declared (receiverLevel :: classLevels levels superclass) := by
  refine Declared.push ?_ declared_receiver
  unfold classLevels
  split
  · exact declared.push declared_heritage
  · exact declared

theorem methodScopes_recode (levels : List Level) (superclass : Option Variable) :
    methodScopes (scopesOf (levelsRecode ϕ levels)) (superclass.map (·.recode ϕ)) =
      scopesOf (levelsRecode ϕ (receiverLevel :: classLevels levels superclass)) := by
  cases superclass with
  | none =>
    simp only [methodScopes, Option.map_none, Option.isSome_none, classLevels, levelsRecode,
      receiverLevel, List.map_cons, scopesOf, Table.recode, List.map_nil, ϕ.bound_this,
      Bool.false_eq_true, ↓reduceIte, id]
  | some use =>
    simp only [methodScopes, Option.map_some, Option.isSome_some, classLevels, levelsRecode,
      receiverLevel, heritageLevel, List.map_cons, scopesOf, Table.recode, List.map_nil,
      ϕ.bound_this, ϕ.bound_super, ↓reduceIte, id]

theorem push_recode (levels : List Level) (origin : Origin) :
    [] :: scopesOf (levelsRecode ϕ levels) = scopesOf (levelsRecode ϕ (⟨origin, []⟩ :: levels)) :=
  rfl

mutual

theorem inStmt_recode (respects : ϕ.Respects G) {context : Context} {levels : List Level}
    (s : Stmt) {result : Scopes × Distances}
    (checked : inStmt context (scopesOf levels) s = .ok result) (declared : Declared levels)
    (covers : Covers levels s.declared) (all : ∀ o ∈ s.occurrences levels, G o) :
    inStmt context (scopesOf (levelsRecode ϕ levels)) (s.recode ϕ) =
      .ok (scopesOf (levelsRecode ϕ (addAll levels s.declared)), result.2) := by
  match s with
  | .expression _ e | .print _ e =>
    simp only [Stmt.recode, inStmt, bind_eq_ok, pure_eq_ok] at checked ⊢
    obtain ⟨ds, inner, rfl⟩ := checked
    exact ⟨ds, inExpr_recode respects e inner all, rfl⟩
  | .var id name initializer =>
    simp only [Stmt.recode, inStmt, bind_eq_ok, pure_eq_ok] at checked ⊢
    obtain ⟨scopes, first, ds, inner, rfl⟩ := checked
    obtain ⟨rfl, _⟩ := scopes_of_declare first
    simp only [Stmt.occurrences, List.forall_mem_cons] at all
    have named := named_of_covers covers
    have lexeme := respects.declared id name levels all.1
    refine ⟨_, declare_recode declared named lexeme first, ds,
      inOptional_recode respects inner all.2, ?_⟩
    rw [define_recode (declared.stage named .declared) named lexeme]
    rfl
  | .block id body =>
    simp only [Stmt.recode, inStmt, bind_eq_ok, pure_eq_ok] at checked ⊢
    obtain ⟨⟨after, ds⟩, inner, rfl⟩ := checked
    simp only [Stmt.occurrences, List.forall_mem_cons] at all
    have same := @inStmts_recode respects _ (blockLevels levels id body) body _ inner
      (declared.push fun _ absent => nomatch absent) (covers_block levels id body) all.2
    exact ⟨_, same, rfl⟩
  | .branch _ condition yes none =>
    simp only [Stmt.recode, inStmt, bind_eq_ok, pure_eq_ok] at checked ⊢
    obtain ⟨first, one, ⟨after, second⟩, two, rfl⟩ := checked
    simp only [Stmt.occurrences, List.forall_mem_append] at all
    exact ⟨first, inExpr_recode respects condition one all.1, _,
      inStmt_recode respects yes two declared covers all.2, rfl⟩
  | .branch _ condition yes (some no) =>
    simp only [Stmt.recode, inStmt, bind_eq_ok, pure_eq_ok] at checked ⊢
    obtain ⟨first, one, ⟨after, second⟩, two, ⟨last, third⟩, three, rfl⟩ := checked
    simp only [Stmt.occurrences, List.forall_mem_append] at all
    cases distances_of_inStmt yes two
    have branch := inStmt_recode respects yes two declared covers.left all.1.2
    have other := inStmt_recode respects no three (declared.addAll covers.left)
      covers.right.addAll all.2
    refine ⟨first, inExpr_recode respects condition one all.1.1, _, branch, _, other, ?_⟩
    simp only [Stmt.declared, addAll, List.foldl_append]
  | .loop _ condition body =>
    simp only [Stmt.recode, inStmt, bind_eq_ok, pure_eq_ok] at checked ⊢
    obtain ⟨first, one, ⟨after, second⟩, two, rfl⟩ := checked
    simp only [Stmt.occurrences, List.forall_mem_append] at all
    exact ⟨first, inExpr_recode respects condition one all.1, _,
      inStmt_recode respects body two declared covers all.2, rfl⟩
  | .function decl =>
    simp only [Stmt.recode, inStmt, bind_eq_ok, pure_eq_ok] at checked ⊢
    obtain ⟨scopes, introduced, ds, inner, rfl⟩ := checked
    obtain ⟨rfl, _⟩ := scopes_of_introduce introduced
    simp only [Stmt.occurrences, List.forall_mem_cons] at all
    have lexeme : (decl.recode ϕ).name.lexeme = ϕ.bound (originOf levels) decl.name.lexeme := by
      rw [FunctionDecl.name_recode, respects.callable _ _ all.1]
    exact ⟨_, introduce_recode declared (named_of_covers covers) lexeme introduced, ds,
      inFunction_recode respects decl inner (declared.add covers) all.2, rfl⟩
  | .returns id keyword value =>
    simp only [Stmt.recode, inStmt, bind_eq_ok, pure_eq_ok] at checked ⊢
    obtain ⟨ds, inner, rfl⟩ := checked
    simp only [Stmt.occurrences, List.forall_mem_cons] at all
    exact ⟨ds, inReturned_recode respects inner all.2, rfl⟩
  | .classDecl id name superclass methods =>
    simp only [Stmt.recode, inStmt, bind_eq_ok, pure_eq_ok] at checked ⊢
    obtain ⟨scopes, introduced, first, one, others, more, rfl⟩ := checked
    obtain ⟨rfl, _⟩ := scopes_of_introduce introduced
    rw [scopesOf_methods] at more
    simp only [Stmt.occurrences, List.forall_mem_cons, List.forall_mem_append] at all
    obtain ⟨_, known, used, inside⟩ := all
    have spelled := respects.callable name levels known
    have lexeme : (ϕ.mark id name).lexeme = ϕ.bound (originOf levels) name.lexeme := by
      rw [ϕ.mark_lexeme, spelled]
    have inner := declared.add covers
    refine ⟨_, introduce_recode declared (named_of_covers covers) lexeme introduced, first, ?_,
      others, ?_, rfl⟩
    · refine inHeritage_recode respects ?_ inner ?_ ?_ (ϕ.mark_lexeme id name) one used
      · exact named_of_covers (Covers.stage (Covers.stage covers))
      · intro level member
        cases levels with
        | nil => cases member
        | cons innermost outer =>
          cases member
          simp [Table.contains_put]
      · rw [add, announce, originOf_stage, originOf_stage, spelled]
    · have kind : classContext (superclass.map (·.recode ϕ)) = classContext superclass := by
        cases superclass <;> rfl
      rw [kind, methodScopes_recode]
      exact inMethods_recode respects methods more (inner.methods superclass) inside

theorem inStmts_recode (respects : ϕ.Respects G) {context : Context} {levels : List Level}
    (body : List Stmt) {result : Scopes × Distances}
    (checked : inStmts context (scopesOf levels) body = .ok result) (declared : Declared levels)
    (covers : Covers levels (body.flatMap Stmt.declared))
    (all : ∀ o ∈ stmtsOccurrences levels body, G o) :
    inStmts context (scopesOf (levelsRecode ϕ levels)) (stmtsRecode ϕ body) =
      .ok (scopesOf (levelsRecode ϕ (addAll levels (body.flatMap Stmt.declared))), result.2) := by
  match body with
  | [] =>
    cases checked
    rfl
  | s :: rest =>
    simp only [stmtsRecode, inStmts, bind_eq_ok, pure_eq_ok] at checked ⊢
    obtain ⟨⟨after, first⟩, one, ⟨last, others⟩, more, rfl⟩ := checked
    simp only [stmtsOccurrences, List.forall_mem_append] at all
    rw [List.flatMap_cons] at covers
    cases distances_of_inStmt s one
    have here := inStmt_recode respects s one declared covers.left all.1
    have later := inStmts_recode respects rest more (declared.addAll covers.left)
      covers.right.addAll all.2
    refine ⟨_, here, _, later, ?_⟩
    simp only [List.flatMap_cons, addAll, List.foldl_append]

theorem inFunction_recode (respects : ϕ.Respects G) {context : Context} {levels : List Level}
    (decl : FunctionDecl) {ds : Distances}
    (checked : inFunction context (scopesOf levels) decl = .ok ds) (declared : Declared levels)
    (all : ∀ o ∈ decl.occurrences levels, G o) :
    inFunction context (scopesOf (levelsRecode ϕ levels)) (decl.recode ϕ) = .ok ds := by
  match decl with
  | .mk id name params body =>
    simp only [FunctionDecl.recode, inFunction, bind_eq_ok, pure_eq_ok] at checked ⊢
    obtain ⟨scopes, introduced, ⟨after, distances⟩, inner, rfl⟩ := checked
    have same := scopes_of_parameters (⟨functionOrigin id params body, []⟩ :: levels) introduced
    subst same
    simp only [FunctionDecl.occurrences, List.forall_mem_cons, List.forall_mem_append,
      List.forall_mem_map] at all
    obtain ⟨_, _, params_all, body_all⟩ := all
    have start : Declared (⟨functionOrigin id params body, []⟩ :: levels) :=
      declared.push fun _ absent => nomatch absent
    have covered : Covers (⟨functionOrigin id params body, []⟩ :: levels) params := by
      rintro _ ⟨⟩ param member
      exact List.mem_append_left _ (List.mem_map_of_mem member)
    rw [push_recode levels (functionOrigin id params body)]
    refine ⟨_, parameters_recode (ϕ.declare id) start covered (fun param member => ?_) introduced,
      _, inStmts_recode respects body inner (start.addAll covered)
        (covers_function levels id params body) body_all, rfl⟩
    rw [respects.parameter id param _ (params_all param member), functionLevels, originOf_addAll]

theorem inMethods_recode (respects : ϕ.Respects G) {enclosingClass : ClassContext}
    {levels : List Level} (methods : List FunctionDecl) {ds : Distances}
    (checked : inMethods enclosingClass (scopesOf levels) methods = .ok ds)
    (declared : Declared levels) (all : ∀ o ∈ methodsOccurrences levels methods, G o) :
    inMethods enclosingClass (scopesOf (levelsRecode ϕ levels)) (methodsRecode ϕ methods) =
      .ok ds := by
  match methods with
  | [] => exact checked
  | m :: rest =>
    simp only [methodsRecode, inMethods, bind_eq_ok, pure_eq_ok] at checked ⊢
    obtain ⟨first, one, others, more, rfl⟩ := checked
    simp only [methodsOccurrences, List.forall_mem_append] at all
    have kind : methodContext (m.recode ϕ).name = methodContext m.name := by
      rw [methodContext, FunctionDecl.name_recode]
      rfl
    rw [kind]
    exact ⟨first, inFunction_recode respects m one declared all.1, others,
      inMethods_recode respects rest more declared all.2, rfl⟩

end

theorem distancesOf_recode {program : List Stmt} {ds : Distances} (respects : ϕ.Respects G)
    (accepted : distancesOf program = .ok ds) (all : ∀ o ∈ occurrencesOf program, G o) :
    distancesOf (stmtsRecode ϕ program) = .ok ds := by
  simp only [distancesOf, bind_eq_ok, pure_eq_ok] at accepted ⊢
  obtain ⟨⟨scopes, distances⟩, checked, rfl⟩ := accepted
  have outside : Covers [] (program.flatMap Stmt.declared) := by
    intro level absent
    cases absent
  have same := @inStmts_recode ϕ G respects _ [] program _ checked (List.forall_mem_nil _) outside all
  exact ⟨_, same, rfl⟩

end LoxMachine.Static
