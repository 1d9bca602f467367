import LoxMachine.Proofs.Scope.Blamed
import LoxMachine.Proofs.Grammar.Builds

namespace LoxMachine.Static

variable {program : List Stmt} {around : List Enclosure}

theorem parts_of_inExprs {context : Context} {scopes : Scopes} {es : List Expr} {ds : Distances}
    (checked : inExprs context scopes es = .ok ds) :
    ∀ e ∈ es, ∃ inner, inExpr context scopes e = .ok inner := by
  induction es generalizing ds with
  | nil =>
    intro _ member
    cases member
  | cons first rest ih =>
    simp only [inExprs, bind_eq_ok] at checked
    obtain ⟨one, here, others, more, _⟩ := checked
    intro e member
    rcases List.mem_cons.mp member with rfl | later
    · exact ⟨one, here⟩
    · exact ih more e later

theorem parts_of_inExpr {context : Context} {scopes : Scopes} {e : Expr} {ds : Distances}
    (checked : inExpr context scopes e = .ok ds) :
    ∀ part ∈ e.parts, ∃ inner, inExpr context scopes part = .ok inner := by
  cases e with
  | literal | read | this | super =>
    intro _ member
    cases member
  | assign id name value =>
    simp only [inExpr, bind_eq_ok] at checked
    obtain ⟨inner, here, _⟩ := checked
    simpa [Expr.parts] using ⟨inner, here⟩
  | unary id operator inner | grouping id inner | get id inner name =>
    simpa [Expr.parts] using ⟨ds, checked⟩
  | binary id left operator right | logical id left operator right =>
    simp only [inExpr, bind_eq_ok] at checked
    obtain ⟨first, one, second, other, _⟩ := checked
    simpa [Expr.parts] using ⟨⟨first, one⟩, second, other⟩
  | call id callee paren arguments =>
    simp only [inExpr, bind_eq_ok] at checked
    obtain ⟨first, one, others, rest, _⟩ := checked
    simpa [Expr.parts] using ⟨⟨first, one⟩, parts_of_inExprs rest⟩
  | set id object name value =>
    simp only [inExpr, bind_eq_ok] at checked
    obtain ⟨first, one, second, other, _⟩ := checked
    simpa [Expr.parts] using ⟨⟨first, one⟩, second, other⟩

theorem inExpr_contains {context : Context} {scopes : Scopes} {e inner : Expr} {ds : Distances}
    (checked : inExpr context scopes e = .ok ds) (contains : e.Contains inner) :
    ∃ found, inExpr context scopes inner = .ok found := by
  induction contains generalizing ds with
  | itself e => exact ⟨ds, checked⟩
  | inside member _ ih =>
    obtain ⟨found, here⟩ := parts_of_inExpr checked _ member
    exact ih here

theorem fresh_of_inStmt {context : Context} {levels : List Level} (s : Stmt)
    {result : Scopes × Distances} (checked : inStmt context (scopesOf levels) s = .ok result) :
    Fresh levels s.declared := by
  have none : ∀ levels, Fresh levels [] := fun _ _ _ => ⟨List.nodup_nil, by simp⟩
  match s with
  | .var _ name initializer =>
    simp only [inStmt, bind_eq_ok] at checked
    obtain ⟨scopes, declared, _⟩ := checked
    exact .cons (scopes_of_declare declared).2 (none _)
  | .function decl =>
    simp only [inStmt, bind_eq_ok] at checked
    obtain ⟨scopes, introduced, _⟩ := checked
    exact .cons (scopes_of_introduce introduced).2 (none _)
  | .classDecl _ name superclass methods =>
    simp only [inStmt, bind_eq_ok] at checked
    obtain ⟨scopes, introduced, _⟩ := checked
    exact .cons (scopes_of_introduce introduced).2 (none _)
  | .branch _ condition yes Option.none =>
    simp only [inStmt, bind_eq_ok] at checked
    obtain ⟨first, one, ⟨scopes, second⟩, two, _⟩ := checked
    exact fresh_of_inStmt yes two
  | .branch _ condition yes (some no) =>
    simp only [inStmt, bind_eq_ok] at checked
    obtain ⟨first, one, ⟨scopes, second⟩, two, ⟨after, third⟩, three, _⟩ := checked
    cases distances_of_inStmt yes two
    exact (fresh_of_inStmt yes two).append (fresh_of_inStmt no three)
  | .loop _ condition body =>
    simp only [inStmt, bind_eq_ok] at checked
    obtain ⟨first, one, ⟨scopes, second⟩, two, _⟩ := checked
    exact fresh_of_inStmt body two
  | .expression _ _ | .print _ _ | .block _ _ | .returns _ _ _ => exact none levels

theorem fresh_of_inStmts {context : Context} {levels : List Level} {body : List Stmt}
    {result : Scopes × Distances} (checked : inStmts context (scopesOf levels) body = .ok result) :
    Fresh levels (body.flatMap Stmt.declared) := by
  induction body generalizing levels result with
  | nil => exact fun _ _ => ⟨List.nodup_nil, by simp⟩
  | cons s rest ih =>
    simp only [inStmts, bind_eq_ok] at checked
    obtain ⟨⟨scopes, first⟩, one, ⟨after, others⟩, more, _⟩ := checked
    cases distances_of_inStmt s one
    rw [List.flatMap_cons]
    exact (fresh_of_inStmt s one).append (ih more)

theorem body_of_inFunction {context : Context} {levels : List Level} {decl : FunctionDecl}
    {ds : Distances} (checked : inFunction context (scopesOf levels) decl = .ok ds) :
    ∃ result, inStmts context (scopesOf (functionLevels levels decl.id decl.params decl.body))
      decl.body = .ok result := by
  obtain ⟨id, name, params, body⟩ := decl
  simp only [inFunction, bind_eq_ok] at checked
  obtain ⟨scopes, introduced, result, inner, _⟩ := checked
  have same := scopes_of_parameters (⟨functionOrigin id params body, []⟩ :: levels) introduced
  subst same
  exact ⟨result, inner⟩

theorem fresh_of_inFunction {context : Context} {levels : List Level} {decl : FunctionDecl}
    {ds : Distances} (checked : inFunction context (scopesOf levels) decl = .ok ds) :
    ((decl.params ++ decl.body.flatMap Stmt.declared).map (·.lexeme)).Nodup := by
  obtain ⟨result, inner⟩ := body_of_inFunction checked
  obtain ⟨id, name, params, body⟩ := decl
  simp only [inFunction, bind_eq_ok] at checked
  obtain ⟨scopes, introduced, _⟩ := checked
  have first : Fresh (⟨functionOrigin id params body, []⟩ :: levels) params :=
    fresh_of_parameters introduced
  exact ((first.append (fresh_of_inStmts inner)) _ rfl).1

theorem checked_of_method {enclosingClass : ClassContext} {scopes : Scopes}
    {methods : List FunctionDecl} {m : FunctionDecl} {ds : Distances}
    (checked : inMethods enclosingClass scopes methods = .ok ds) (which : m ∈ methods) :
    ∃ inner, inFunction ⟨methodContext m.name, enclosingClass⟩ scopes m = .ok inner := by
  induction methods generalizing ds with
  | nil => cases which
  | cons first rest ih =>
    simp only [inMethods, bind_eq_ok] at checked
    obtain ⟨one, here, others, more, _⟩ := checked
    rcases List.mem_cons.mp which with rfl | later
    · exact ⟨one, here⟩
    · exact ih more later

def Passed (around : List Enclosure) (s : Stmt) : Prop :=
  ∃ levels result, inStmt (contextOf around) (scopesOf levels) s = .ok result ∧
    (around ≠ [] → levels ≠ [])

theorem stage_ne_nil {levels : List Level} {name : String} {s : Stage} (inner : levels ≠ []) :
    stage levels name s ≠ [] := by
  cases levels with
  | nil => exact absurd rfl inner
  | cons level outer => exact List.cons_ne_nil _ _

theorem addAll_ne_nil {levels : List Level} {names : List Token} (inner : levels ≠ []) :
    addAll levels names ≠ [] := by
  induction names generalizing levels with
  | nil => exact inner
  | cons name rest ih => exact ih (stage_ne_nil (stage_ne_nil inner))

theorem passed_of_mem {levels : List Level} {body : List Stmt} {result : Scopes × Distances}
    (checked : inStmts (contextOf around) (scopesOf levels) body = .ok result)
    (inner : around ≠ [] → levels ≠ []) : ∀ s ∈ body, Passed around s := by
  induction body generalizing levels result with
  | nil =>
    intro _ member
    cases member
  | cons first rest ih =>
    simp only [inStmts, bind_eq_ok] at checked
    obtain ⟨⟨scopes, ds⟩, one, ⟨after, others⟩, more, _⟩ := checked
    intro s member
    rcases List.mem_cons.mp member with rfl | later
    · exact ⟨levels, _, one, inner⟩
    · cases distances_of_inStmt first one
      exact ih more (fun inside => addAll_ne_nil (inner inside)) s later

theorem functionLevels_ne_nil (levels : List Level) (id : NodeId) (params : List Token)
    (body : List Stmt) : functionLevels levels id params body ≠ [] :=
  addAll_ne_nil (List.cons_ne_nil _ _)

theorem inner_of_passed_function {decl : FunctionDecl} (passed : Passed around (.function decl)) :
    ∃ levels ds, inFunction (contextOf (.function :: around)) (scopesOf levels) decl = .ok ds := by
  obtain ⟨levels, result, checked, _⟩ := passed
  simp only [inStmt, bind_eq_ok] at checked
  obtain ⟨scopes, introduced, ds, inner, _⟩ := checked
  obtain ⟨rfl, _⟩ := scopes_of_introduce introduced
  exact ⟨_, ds, inner⟩

theorem inner_of_passed_method {id : NodeId} {name : Token} {superclass : Option Variable}
    {methods : List FunctionDecl} {m : FunctionDecl}
    (passed : Passed around (.classDecl id name superclass methods)) (which : m ∈ methods) :
    ∃ levels ds, inFunction (contextOf (.method m.name :: .classBody superclass :: around))
      (scopesOf levels) m = .ok ds := by
  obtain ⟨levels, result, checked, _⟩ := passed
  simp only [inStmt, bind_eq_ok] at checked
  obtain ⟨scopes, introduced, _, _, ds, others, _⟩ := checked
  obtain ⟨rfl, _⟩ := scopes_of_introduce introduced
  rw [scopesOf_methods] at others
  obtain ⟨inner, here⟩ := checked_of_method others which
  exact ⟨_, inner, here⟩

/-- An accepted program has been through the pass at each of its places. -/
theorem passed_of_stands {ds : Distances} {s : Stmt} (accepted : distancesOf program = .ok ds)
    (stands : Stands program around s) : Passed around s := by
  induction stands with
  | top member =>
    simp only [distancesOf, bind_eq_ok] at accepted
    obtain ⟨result, checked, _⟩ := accepted
    have checked : inStmts (contextOf []) (scopesOf []) program = .ok result := checked
    exact passed_of_mem checked (fun inside => absurd rfl inside) _ member
  | @block around id body _ _ member ih =>
    obtain ⟨levels, result, checked, _⟩ := ih
    simp only [inStmt, bind_eq_ok] at checked
    obtain ⟨inner, within, _⟩ := checked
    have within : inStmts (contextOf (.block :: around)) (scopesOf (blockLevels levels id body))
      body = .ok inner := within
    exact passed_of_mem within (fun _ => List.cons_ne_nil _ _) _ member
  | @yes _ _ _ _ no _ ih =>
    obtain ⟨levels, result, checked, inner⟩ := ih
    cases no with
    | none =>
      simp only [inStmt, bind_eq_ok] at checked
      obtain ⟨_, _, second, two, _⟩ := checked
      exact ⟨levels, second, two, inner⟩
    | some no =>
      simp only [inStmt, bind_eq_ok] at checked
      obtain ⟨_, _, second, two, _⟩ := checked
      exact ⟨levels, second, two, inner⟩
  | @no _ _ _ yes _ _ ih =>
    obtain ⟨levels, result, checked, inner⟩ := ih
    simp only [inStmt, bind_eq_ok] at checked
    obtain ⟨_, _, ⟨scopes, second⟩, two, third, three, _⟩ := checked
    cases distances_of_inStmt yes two
    exact ⟨_, third, three, fun inside => addAll_ne_nil (inner inside)⟩
  | loop _ ih =>
    obtain ⟨levels, result, checked, inner⟩ := ih
    simp only [inStmt, bind_eq_ok] at checked
    obtain ⟨_, _, second, two, _⟩ := checked
    exact ⟨levels, second, two, inner⟩
  | function _ member ih =>
    obtain ⟨levels, ds, checked⟩ := inner_of_passed_function ih
    obtain ⟨result, within⟩ := body_of_inFunction checked
    exact passed_of_mem within (fun _ => functionLevels_ne_nil _ _ _ _) _ member
  | method _ which member ih =>
    obtain ⟨levels, ds, checked⟩ := inner_of_passed_method ih which
    obtain ⟨result, within⟩ := body_of_inFunction checked
    exact passed_of_mem within (fun _ => functionLevels_ne_nil _ _ _ _) _ member

theorem checked_of_returned {context : Context} {scopes : Scopes} {keyword : Token} {e : Expr}
    {ds : Distances} (checked : inReturned context scopes keyword (some e) = .ok ds) :
    context.function ≠ .topLevel ∧ ¬ (context.function = .initializer ∧ isNil e = false) ∧
      inExpr context scopes e = .ok ds := by
  unfold inReturned at checked
  split at checked
  · cases checked
  · rename_i inside
    simp only [Bool.and_eq_true, decide_eq_true_eq, Bool.not_eq_eq_eq_not, Bool.not_true] at checked
    split at checked
    · cases checked
    · rename_i allowed
      exact ⟨inside, allowed, checked⟩

theorem expr_of_passed {s : Stmt} {e : Expr} (passed : Passed around s) (own : e ∈ s.exprs) :
    ∃ scopes ds, inExpr (contextOf around) scopes e = .ok ds := by
  obtain ⟨levels, result, checked, _⟩ := passed
  cases s with
  | expression | print =>
    cases List.mem_singleton.mp own
    simp only [inStmt, bind_eq_ok] at checked
    obtain ⟨ds, inner, _⟩ := checked
    exact ⟨_, ds, inner⟩
  | «var» id name value =>
    cases Option.mem_toList.mp own
    simp only [inStmt, bind_eq_ok] at checked
    obtain ⟨scopes, _, ds, inner, _⟩ := checked
    exact ⟨scopes, ds, inner⟩
  | returns id keyword value =>
    cases Option.mem_toList.mp own
    simp only [inStmt, bind_eq_ok] at checked
    obtain ⟨ds, inner, _⟩ := checked
    exact ⟨_, ds, (checked_of_returned inner).2.2⟩
  | branch id condition yes no =>
    cases List.mem_singleton.mp own
    cases no with
    | none | some =>
      simp only [inStmt, bind_eq_ok] at checked
      obtain ⟨ds, inner, _⟩ := checked
      exact ⟨_, ds, inner⟩
  | loop =>
    cases List.mem_singleton.mp own
    simp only [inStmt, bind_eq_ok] at checked
    obtain ⟨ds, inner, _⟩ := checked
    exact ⟨_, ds, inner⟩
  | block | function | classDecl => cases own

theorem checked_of_evaluates {ds : Distances} {inner : Expr}
    (accepted : distancesOf program = .ok ds) (evaluates : Evaluates program around inner) :
    ∃ scopes found, inExpr (contextOf around) scopes inner = .ok found := by
  obtain ⟨s, stands, e, own, within⟩ := evaluates
  obtain ⟨scopes, outer, checked⟩ := expr_of_passed (passed_of_stands accepted stands) own
  exact ⟨scopes, inExpr_contains checked within⟩

theorem nodup_of_block {ds : Distances} {id : NodeId} {body : List Stmt}
    (accepted : distancesOf program = .ok ds) (stands : Stands program around (.block id body)) :
    ((body.flatMap Stmt.declared).map (·.lexeme)).Nodup := by
  obtain ⟨levels, result, checked, _⟩ := passed_of_stands accepted stands
  simp only [inStmt, bind_eq_ok] at checked
  obtain ⟨inner, within, _⟩ := checked
  have fresh : Fresh (blockLevels levels id body) (body.flatMap Stmt.declared) :=
    fresh_of_inStmts within
  exact (fresh _ rfl).1

theorem not_reads_of_accepted {ds : Distances} {id : NodeId} {name : Token} {e : Expr}
    {use : Variable} (accepted : distancesOf program = .ok ds)
    (stands : Stands program around (.var id name (some e))) (inner : around ≠ [])
    (reads : e.Contains (.read use)) : use.name.lexeme ≠ name.lexeme := by
  obtain ⟨levels, result, checked, bound⟩ := passed_of_stands accepted stands
  simp only [inStmt, bind_eq_ok] at checked
  obtain ⟨scopes, declared, outer, initializer, _⟩ := checked
  obtain ⟨rfl, _⟩ := scopes_of_declare declared
  obtain ⟨found, read⟩ := inExpr_contains initializer reads
  cases levels with
  | nil => exact absurd rfl (bound inner)
  | cons level rest =>
    intro same
    simp [inExpr, announce, stage, scopesOf, readDistance, Table.get?_put, same] at read

/-- An accepted program breaks no rule. -/
theorem not_violates_of_accepted {ds : Distances} {rule : StaticRule} {name : Token}
    (accepted : distancesOf program = .ok ds) : ¬ Violates program rule name := by
  intro violates
  cases violates with
  | block stands twice => exact twice.not_nodup (nodup_of_block accepted stands)
  | function stands twice =>
    obtain ⟨levels, inner, checked⟩ := inner_of_passed_function (passed_of_stands accepted stands)
    exact twice.not_nodup (fresh_of_inFunction checked)
  | method stands which twice =>
    obtain ⟨levels, inner, checked⟩ :=
      inner_of_passed_method (passed_of_stands accepted stands) which
    exact twice.not_nodup (fresh_of_inFunction checked)
  | initializer stands inner reads same =>
    exact not_reads_of_accepted accepted stands inner reads same
  | @returnOutside _ _ _ value stands outside =>
    obtain ⟨levels, result, checked, _⟩ := passed_of_stands accepted stands
    simp only [inStmt, bind_eq_ok, inReturned, topLevel_iff.mpr outside, ↓reduceIte] at checked
    obtain ⟨_, impossible, _⟩ := checked
    cases impossible
  | @returnFromInitializer _ _ _ name e stands inside init given =>
    obtain ⟨levels, result, checked, _⟩ := passed_of_stands accepted stands
    simp only [inStmt, bind_eq_ok] at checked
    obtain ⟨inner, returned, _⟩ := checked
    exact (checked_of_returned returned).2.1
      ⟨initializer_iff.mpr ⟨name, inside, init⟩, isNil_eq_false.mpr given⟩
  | thisOutside evaluates outside =>
    obtain ⟨scopes, found, checked⟩ := checked_of_evaluates accepted evaluates
    simp [inExpr, outside_iff.mpr outside] at checked
  | superOutside evaluates outside =>
    obtain ⟨scopes, found, checked⟩ := checked_of_evaluates accepted evaluates
    simp [inExpr, outside_iff.mpr outside] at checked
  | superWithoutSuperclass evaluates inside =>
    obtain ⟨scopes, found, checked⟩ := checked_of_evaluates accepted evaluates
    simp [inExpr, plain_iff.mpr inside] at checked
  | selfInheritance stands same =>
    obtain ⟨levels, result, checked, _⟩ := passed_of_stands accepted stands
    simp only [inStmt, bind_eq_ok, inHeritage, same, ↓reduceIte] at checked
    obtain ⟨_, _, _, impossible, _⟩ := checked
    cases impossible

end LoxMachine.Static

namespace LoxMachine

/-- A program that the grammar built is rejected exactly if it breaks a rule at some token, and the
error is about a token at which it does. -/
theorem rejected_iff_violates {firstId : NodeId} {tokens : List Token} {program : List Stmt}
    {stop : Cursor} (genuine : ∀ t ∈ tokens, t.Genuine)
    (parsed : parse firstId tokens = (.ok program, stop)) :
    ((∃ e, distancesOf program = .error e) ↔ ∃ rule name, Violates program rule name) ∧
      ∀ e, distancesOf program = .error e → Violates program e.rule e.token := by
  have formed := (built_of_parse genuine parsed).2
  refine ⟨⟨?_, ?_⟩, fun e => Static.violates_of_error formed⟩
  · rintro ⟨e, failed⟩
    exact ⟨e.rule, e.token, Static.violates_of_error formed failed⟩
  · rintro ⟨rule, name, violates⟩
    cases checked : distancesOf program with
    | ok ds => exact absurd violates (Static.not_violates_of_accepted checked)
    | error e => exact ⟨e, rfl⟩

def givingTokens : List Token :=
  [⟨.keyword .classWord, "class", 1⟩, ⟨.identifier, "A", 1⟩, ⟨.symbol .leftBrace, "\x7b", 1⟩,
    ⟨.identifier, "init", 1⟩, ⟨.symbol .leftParen, "(", 1⟩, ⟨.symbol .rightParen, ")", 1⟩,
    ⟨.symbol .leftBrace, "\x7b", 1⟩, ⟨.keyword .returnWord, "return", 1⟩,
    ⟨.keyword .thisWord, "this", 1⟩, ⟨.symbol .semicolon, ";", 1⟩, ⟨.symbol .rightBrace, "\x7d", 1⟩,
    ⟨.symbol .rightBrace, "\x7d", 1⟩, .ending 1]

def givingProgram : List Stmt :=
  [.classDecl 3 ⟨.identifier, "A", 1⟩ none
    [.mk 2 ⟨.identifier, "init", 1⟩ []
      [.returns 1 ⟨.keyword .returnWord, "return", 1⟩
        (some (.this 0 ⟨.keyword .thisWord, "this", 1⟩))]]]

theorem violates_of_giving :
    parse 0 givingTokens = (.ok givingProgram, ⟨[.ending 1], 4⟩) ∧
      distancesOf givingProgram =
        .error ⟨.returnFromInitializer, ⟨.keyword .returnWord, "return", 1⟩⟩ ∧
      Violates givingProgram .returnFromInitializer ⟨.keyword .returnWord, "return", 1⟩ := by
  have parsed : parse 0 givingTokens = (.ok givingProgram, ⟨[.ending 1], 4⟩) := rfl
  have scanned : tokenize "class A \x7b init() \x7b return this; \x7d \x7d" = .ok givingTokens := rfl
  have failed : distancesOf givingProgram =
      .error ⟨.returnFromInitializer, ⟨.keyword .returnWord, "return", 1⟩⟩ := rfl
  exact ⟨parsed, failed, (rejected_iff_violates (genuine_of_tokenize scanned) parsed).2 _ failed⟩

end LoxMachine
