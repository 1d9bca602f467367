import LoxMachine.Proofs.Scope.Accepted
import LoxMachine.Proofs.Scope.Violations

namespace LoxMachine.Static

variable {program : List Stmt} {around : List Enclosure}

theorem bind_eq_error {ε α β : Type} {result : Except ε α} {next : α → Except ε β} {e : ε} :
    (result >>= next) = .error e ↔ result = .error e ∨ ∃ a, result = .ok a ∧ next a = .error e := by
  cases result <;> simp [Bind.bind, Except.bind]

theorem pure_ne_error {ε α : Type} {a : α} {e : ε} : ¬ (pure a : Except ε α) = .error e := by
  simp [Pure.pure, Except.pure]

theorem part_of_inExprs {context : Context} {scopes : Scopes} {es : List Expr} {err : StaticError}
    (failed : inExprs context scopes es = .error err) :
    ∃ e ∈ es, inExpr context scopes e = .error err := by
  induction es with
  | nil => cases failed
  | cons first rest ih =>
    simp only [inExprs, bind_eq_error, pure_ne_error, and_false, exists_false, or_false] at failed
    rcases failed with here | ⟨_, _, later⟩
    · exact ⟨first, List.mem_cons_self, here⟩
    · obtain ⟨e, member, inner⟩ := ih later
      exact ⟨e, List.mem_cons_of_mem _ member, inner⟩

theorem part_of_inExpr {context : Context} {scopes : Scopes} {e : Expr} {err : StaticError}
    (failed : inExpr context scopes e = .error err) :
    e.parts = [] ∨ ∃ part ∈ e.parts, inExpr context scopes part = .error err := by
  cases e with
  | literal | read | this | super => exact .inl rfl
  | assign id name value =>
    simp only [inExpr, bind_eq_error, pure_ne_error, and_false, exists_false, or_false] at failed
    exact .inr ⟨value, List.mem_singleton_self value, failed⟩
  | unary id operator inner | grouping id inner | get id inner name =>
    exact .inr ⟨inner, List.mem_singleton_self inner, failed⟩
  | binary id left operator right | logical id left operator right =>
    simp only [inExpr, bind_eq_error, pure_ne_error, and_false, exists_false, or_false] at failed
    rcases failed with here | ⟨_, _, later⟩
    · exact .inr ⟨left, by simp [Expr.parts], here⟩
    · exact .inr ⟨right, by simp [Expr.parts], later⟩
  | call id callee paren arguments =>
    simp only [inExpr, bind_eq_error, pure_ne_error, and_false, exists_false, or_false] at failed
    rcases failed with here | ⟨_, _, later⟩
    · exact .inr ⟨callee, by simp [Expr.parts], here⟩
    · obtain ⟨e, member, inner⟩ := part_of_inExprs later
      exact .inr ⟨e, List.mem_cons_of_mem _ member, inner⟩
  | set id object name value =>
    simp only [inExpr, bind_eq_error, pure_ne_error, and_false, exists_false, or_false] at failed
    rcases failed with here | ⟨_, _, later⟩
    · exact .inr ⟨value, by simp [Expr.parts], here⟩
    · exact .inr ⟨object, by simp [Expr.parts], later⟩

theorem sizeOf_part {e part : Expr} (member : part ∈ e.parts) : sizeOf part < sizeOf e := by
  cases e with
  | literal | read | this | super => cases member
  | assign | unary | grouping | get =>
    cases List.mem_singleton.mp member
    simp +arith
  | binary | logical | set =>
    simp only [Expr.parts, List.mem_cons, List.not_mem_nil, or_false] at member
    rcases member with rfl | rfl
    · simp +arith
    · simp +arith
  | call id callee paren arguments =>
    rcases List.mem_cons.mp member with rfl | later
    · simp +arith
    · have smaller := List.sizeOf_lt_of_mem later
      simp only [Expr.call.sizeOf_spec]
      omega

theorem leaf_of_inExpr {context : Context} {scopes : Scopes} (e : Expr) {err : StaticError}
    (failed : inExpr context scopes e = .error err) :
    ∃ leaf, e.Contains leaf ∧ leaf.parts = [] ∧ inExpr context scopes leaf = .error err := by
  rcases part_of_inExpr failed with none | ⟨part, member, inner⟩
  · exact ⟨e, .itself e, none, failed⟩
  · obtain ⟨leaf, within, bare, here⟩ := leaf_of_inExpr part inner
    exact ⟨leaf, .inside member within, bare, here⟩
termination_by sizeOf e
decreasing_by exact sizeOf_part member

theorem formed_of_exprs {es : List Expr} (formed : ExprsFormed es) : ∀ e ∈ es, e.Formed := by
  induction es with
  | nil =>
    intro _ member
    cases member
  | cons first rest ih =>
    intro e member
    rcases List.mem_cons.mp member with rfl | later
    · exact formed.1
    · exact ih formed.2 e later

theorem formed_of_parts {e : Expr} (formed : e.Formed) : ∀ part ∈ e.parts, part.Formed := by
  cases e with
  | literal | read | this | super =>
    intro _ member
    cases member
  | assign => simpa [Expr.parts] using formed.1
  | unary | grouping | get =>
    simp only [Expr.parts, List.mem_singleton, forall_eq]
    exact formed
  | binary | logical => simpa [Expr.parts] using ⟨formed.1, formed.2⟩
  | call => simpa [Expr.parts] using ⟨formed.1, formed_of_exprs formed.2⟩
  | set => simpa [Expr.parts] using formed.symm

theorem formed_of_contains {e inner : Expr} (contains : e.Contains inner) (formed : e.Formed) :
    inner.Formed := by
  induction contains with
  | itself => exact formed
  | inside member _ ih => exact ih (formed_of_parts formed _ member)

theorem error_of_read {levels : List Level} {id : NodeId} {name : Token} {err : StaticError}
    (failed : readDistance (scopesOf levels) id name = .error err) :
    err = ⟨.ownInitializer, name⟩ ∧
      ∃ level ∈ levels.head?, level.table.get? name.lexeme = some .declared := by
  cases levels with
  | nil => cases failed
  | cons level outer =>
    simp only [scopesOf, List.map_cons, readDistance] at failed
    split at failed
    · rename_i pending
      cases failed
      exact ⟨rfl, level, rfl, pending⟩
    · cases failed

/-- An expression that fails breaks a rule, if the reads of names that are not ready do. -/
theorem violates_of_inExpr {levels : List Level} {e : Expr} {err : StaticError}
    (failed : inExpr (contextOf around) (scopesOf levels) e = .error err) (formed : e.Formed)
    (evaluates : ∀ inner, e.Contains inner → Evaluates program around inner)
    (object : ∀ level ∈ levels.head?, level.table.get? "this" ≠ some .declared)
    (reads : ∀ use, e.Contains (.read use) → ∀ level ∈ levels.head?,
      level.table.get? use.name.lexeme = some .declared →
        Violates program .ownInitializer use.name) :
    Violates program err.rule err.token := by
  obtain ⟨leaf, within, bare, here⟩ := leaf_of_inExpr e failed
  cases leaf with
  | read use =>
    obtain ⟨rfl, level, member, pending⟩ := error_of_read here
    exact reads use within level member pending
  | this id keyword =>
    simp only [inExpr] at here
    split at here
    · rename_i outside
      cases here
      exact .thisOutside (evaluates _ within) (outside_iff.mp outside)
    · obtain ⟨_, level, member, pending⟩ := error_of_read here
      have word : keyword.lexeme = "this" := formed_of_contains within formed
      rw [word] at pending
      exact absurd pending (object level member)
  | super id keyword method =>
    simp only [inExpr] at here
    split at here
    · rename_i outside
      cases here
      exact .superOutside (evaluates _ within) (outside_iff.mp outside)
    · rename_i plain
      cases here
      exact .superWithoutSuperclass (evaluates _ within) (plain_iff.mp plain)
    · cases here
  | literal => cases here
  | assign | unary | grouping | get | binary | logical | call | set => cases bare

def Ready (levels : List Level) : Prop :=
  ∀ level ∈ levels.head?, ∀ x, level.table.get? x ≠ some .declared

theorem Ready.nil : Ready [] := by
  intro level member
  cases member

theorem Ready.push (origin : Origin) (levels : List Level) : Ready (⟨origin, []⟩ :: levels) := by
  rintro _ ⟨⟩ x
  simp [Table.get?]

theorem Ready.add {levels : List Level} (ready : Ready levels) (name : Token) :
    Ready (add levels name) := by
  cases levels with
  | nil => exact .nil
  | cons level outer =>
    rintro _ ⟨⟩ x
    simp only [Table.get?_put]
    split
    · simp
    · exact ready level rfl x

theorem Ready.addAll {levels : List Level} (ready : Ready levels) (names : List Token) :
    Ready (addAll levels names) := by
  induction names generalizing levels with
  | nil => exact ready
  | cons name rest ih => exact ih (ready.add name)

theorem Ready.pending {levels : List Level} (ready : Ready levels) {name : Token} {x : String}
    {level : Level} (member : level ∈ (announce levels name).head?)
    (pending : level.table.get? x = some .declared) : x = name.lexeme := by
  cases levels with
  | nil => cases member
  | cons innermost outer =>
    cases member
    simp only [Table.get?_put] at pending
    split at pending
    · assumption
    · exact absurd pending (ready innermost rfl x)

structure Front (around : List Enclosure) (levels : List Level) (names : List Token) : Prop where
  inner : levels ≠ [] → around ≠ []
  ready : Ready levels
  listed : ∀ level ∈ levels.head?, ∀ x, level.table.contains x → ∃ name ∈ names, name.lexeme = x

theorem Front.nil (around : List Enclosure) (names : List Token) : Front around [] names := by
  refine ⟨fun inside => absurd rfl inside, .nil, ?_⟩
  intro level member
  cases member

theorem Front.push (inner : around ≠ []) (origin : Origin) (levels : List Level) :
    Front around (⟨origin, []⟩ :: levels) [] := by
  refine ⟨fun _ => inner, .push origin levels, ?_⟩
  rintro _ ⟨⟩ x present
  cases present

theorem Front.add {levels : List Level} {names : List Token} (front : Front around levels names)
    (name : Token) : Front around (add levels name) (names ++ [name]) := by
  cases levels with
  | nil => exact .nil around _
  | cons level outer =>
    refine ⟨fun _ => front.inner (by simp), front.ready.add name, ?_⟩
    intro inner member x present
    rw [contains_add level outer name x inner member, Bool.or_eq_true, beq_iff_eq] at present
    rcases present with rfl | before
    · exact ⟨name, by simp, rfl⟩
    · obtain ⟨other, here, same⟩ := front.listed level rfl x before
      exact ⟨other, List.mem_append_left _ here, same⟩

theorem Front.addAll {levels : List Level} {names : List Token} (front : Front around levels names)
    (added : List Token) : Front around (addAll levels added) (names ++ added) := by
  induction added generalizing levels names with
  | nil => simpa [Static.addAll] using front
  | cons name rest ih => simpa [Static.addAll] using ih (front.add name)

def Guards (program : List Stmt) (around : List Enclosure) (names : List Token) : Prop :=
  around ≠ [] → ∀ name, Repeats names name → Violates program .declaredTwice name

theorem Guards.left {first second : List Token} (guards : Guards program around (first ++ second)) :
    Guards program around first :=
  fun inner name repeated => guards inner name (repeated.append second)

theorem repeats_of_declare {levels : List Level} {names : List Token} {name : Token}
    {err : StaticError} (front : Front around levels names)
    (failed : declare (scopesOf levels) name = .error err) :
    around ≠ [] ∧ err = ⟨.declaredTwice, name⟩ ∧ Repeats (names ++ [name]) name := by
  cases levels with
  | nil => cases failed
  | cons level outer =>
    simp only [scopesOf, List.map_cons, declare] at failed
    split at failed
    · rename_i present
      cases failed
      obtain ⟨other, member, same⟩ := front.listed level rfl name.lexeme present
      exact ⟨front.inner (by simp), rfl, .of_mem member same⟩
    · cases failed

theorem repeats_of_introduce {levels : List Level} {names : List Token} {name : Token}
    {err : StaticError} (front : Front around levels names)
    (failed : introduce (scopesOf levels) name = .error err) :
    around ≠ [] ∧ err = ⟨.declaredTwice, name⟩ ∧ Repeats (names ++ [name]) name := by
  simp only [introduce, bind_eq_error, pure_ne_error, and_false, exists_false, or_false] at failed
  exact repeats_of_declare front failed

theorem repeats_of_parameters {levels : List Level} {names params : List Token} {err : StaticError}
    (front : Front around levels names)
    (failed : params.foldlM introduce (scopesOf levels) = .error err) :
    ∃ name, err = ⟨.declaredTwice, name⟩ ∧ Repeats (names ++ params) name := by
  induction params generalizing levels names with
  | nil => cases failed
  | cons param rest ih =>
    rw [List.foldlM_cons, bind_eq_error] at failed
    rcases failed with here | ⟨scopes, introduced, later⟩
    · obtain ⟨_, same, repeated⟩ := repeats_of_introduce front here
      exact ⟨param, same, by simpa using repeated.append rest⟩
    · obtain ⟨rfl, _⟩ := scopes_of_introduce introduced
      obtain ⟨name, same, repeated⟩ := ih (front.add param) later
      exact ⟨name, same, by simpa using repeated⟩

theorem self_of_inHeritage {levels : List Level} {names : List Token} {name : Token}
    {superclass : Option Variable} {err : StaticError} (front : Front around levels names)
    (failed : inHeritage (scopesOf levels) name superclass = .error err) :
    ∃ use, superclass = some use ∧ use.name.lexeme = name.lexeme ∧
      err = ⟨.selfInheritance, use.name⟩ := by
  cases superclass with
  | none => cases failed
  | some use =>
    simp only [inHeritage] at failed
    split at failed
    · rename_i same
      cases failed
      exact ⟨use, rfl, same, rfl⟩
    · obtain ⟨_, level, member, pending⟩ := error_of_read failed
      exact absurd pending (front.ready level member _)

theorem Front.violates {levels : List Level} {names : List Token} {s : Stmt} {e : Expr}
    {err : StaticError} (front : Front around levels names) (stands : Stands program around s)
    (own : e ∈ s.exprs) (formed : e.Formed)
    (failed : inExpr (contextOf around) (scopesOf levels) e = .error err) :
    Violates program err.rule err.token :=
  violates_of_inExpr failed formed (fun _ within => ⟨s, stands, e, own, within⟩)
    (fun level member => front.ready level member _)
    fun _ _ level member pending => absurd pending (front.ready level member _)

theorem violates_of_initializer {levels : List Level} {names : List Token} {id : NodeId}
    {name : Token} {e : Option Expr} {err : StaticError} (front : Front around levels names)
    (stands : Stands program around (.var id name e)) (formed : OptionalFormed e)
    (ordinary : name.Ordinary)
    (failed : inOptional (contextOf around) (scopesOf (announce levels name)) e = .error err) :
    Violates program err.rule err.token := by
  cases e with
  | none => cases failed
  | some e =>
    refine violates_of_inExpr failed formed
      (fun _ within => ⟨_, stands, e, List.mem_singleton_self e, within⟩) ?_ ?_
    · intro level member pending
      exact ordinary.1 (front.ready.pending member pending).symm
    · intro use within level member pending
      have inside : levels ≠ [] := by
        rintro rfl
        cases member
      exact .initializer stands (front.inner inside) within (front.ready.pending member pending)

theorem isNil_eq_false {e : Expr} : isNil e = false ↔ ∀ literal, e ≠ .literal literal .nil := by
  constructor
  · rintro other literal rfl
    cases other
  · intro other
    unfold isNil
    split
    · exact absurd rfl (other _)
    · rfl

theorem violates_of_inReturned {levels : List Level} {names : List Token} {id : NodeId}
    {keyword : Token} {value : Option Expr} {err : StaticError} (front : Front around levels names)
    (stands : Stands program around (.returns id keyword value)) (formed : OptionalFormed value)
    (failed : inReturned (contextOf around) (scopesOf levels) keyword value = .error err) :
    Violates program err.rule err.token := by
  unfold inReturned at failed
  split at failed
  · rename_i outside
    cases failed
    exact .returnOutside stands (topLevel_iff.mp outside)
  · cases value with
    | none => cases failed
    | some e =>
      simp only [Bool.and_eq_true, decide_eq_true_eq, Bool.not_eq_eq_eq_not, Bool.not_true] at failed
      split at failed
      · rename_i given
        cases failed
        obtain ⟨name, inside, init⟩ := initializer_iff.mp given.1
        exact .returnFromInitializer stands inside init (isNil_eq_false.mp given.2)
      · exact front.violates stands (List.mem_singleton_self e) formed failed

mutual

theorem violates_of_inStmt {around : List Enclosure} {levels : List Level} {names : List Token}
    (s : Stmt) {err : StaticError}
    (failed : inStmt (contextOf around) (scopesOf levels) s = .error err)
    (stands : Stands program around s) (formed : s.Formed) (front : Front around levels names)
    (guards : Guards program around (names ++ s.declared)) :
    Violates program err.rule err.token := by
  match s with
  | .expression _ e | .print _ e =>
    simp only [inStmt, bind_eq_error, pure_ne_error, and_false, exists_false, or_false] at failed
    exact front.violates stands (List.mem_singleton_self e) formed failed
  | .var _ name initializer =>
    simp only [inStmt, bind_eq_error, pure_ne_error, and_false, exists_false, or_false] at failed
    rcases failed with twice | ⟨scopes, declared, inner⟩
    · obtain ⟨inside, rfl, repeated⟩ := repeats_of_declare front twice
      exact guards inside name repeated
    · obtain ⟨rfl, _⟩ := scopes_of_declare declared
      exact violates_of_initializer front stands formed.1 formed.2 inner
  | .block id body =>
    simp only [inStmt, bind_eq_error, pure_ne_error, and_false, exists_false, or_false] at failed
    have inside : ∀ s ∈ body, Stands program (.block :: around) s :=
      fun _ member => .block stands member
    have front : Front (.block :: around) (blockLevels levels id body) [] :=
      .push (by simp) _ levels
    exact violates_of_inStmts body failed inside formed front
      fun _ name repeated => .block stands repeated
  | .branch _ condition yes none =>
    simp only [inStmt, bind_eq_error, pure_ne_error, and_false, exists_false, or_false] at failed
    rcases failed with test | ⟨first, _, chosen⟩
    · exact front.violates stands (List.mem_singleton_self condition) formed.1 test
    · exact violates_of_inStmt yes chosen (.yes stands) formed.2.1 front guards
  | .branch _ condition yes (some no) =>
    simp only [inStmt, bind_eq_error, pure_ne_error, and_false, exists_false, or_false] at failed
    rw [Stmt.declared, ← List.append_assoc] at guards
    rcases failed with test | ⟨first, _, chosen | ⟨⟨scopes, second⟩, passed, other⟩⟩
    · exact front.violates stands (List.mem_singleton_self condition) formed.1 test
    · exact violates_of_inStmt yes chosen (.yes stands) formed.2.1.1 front guards.left
    · cases distances_of_inStmt yes passed
      exact violates_of_inStmt no other (.no stands) formed.2.2.1 (front.addAll yes.declared) guards
  | .loop _ condition body =>
    simp only [inStmt, bind_eq_error, pure_ne_error, and_false, exists_false, or_false] at failed
    rcases failed with test | ⟨first, _, again⟩
    · exact front.violates stands (List.mem_singleton_self condition) formed.1 test
    · exact violates_of_inStmt body again (.loop stands) formed.2.1 front guards
  | .function decl =>
    simp only [inStmt, bind_eq_error, pure_ne_error, and_false, exists_false, or_false] at failed
    rcases failed with twice | ⟨scopes, introduced, inner⟩
    · obtain ⟨inside, rfl, repeated⟩ := repeats_of_introduce front twice
      exact guards inside decl.name repeated
    · obtain ⟨rfl, _⟩ := scopes_of_introduce introduced
      rw [← contextOf_function] at inner
      have inside : ∀ s ∈ decl.body, Stands program (.function :: around) s :=
        fun _ member => .function stands member
      exact violates_of_inFunction decl inner inside formed (by simp)
        fun _ name repeated => .function stands repeated
  | .returns _ keyword value =>
    simp only [inStmt, bind_eq_error, pure_ne_error, and_false, exists_false, or_false] at failed
    exact violates_of_inReturned front stands formed failed
  | .classDecl _ name superclass methods =>
    simp only [inStmt, bind_eq_error, pure_ne_error, and_false, exists_false, or_false] at failed
    rcases failed with twice | ⟨scopes, introduced, rest⟩
    · obtain ⟨inside, rfl, repeated⟩ := repeats_of_introduce front twice
      exact guards inside name repeated
    · obtain ⟨rfl, _⟩ := scopes_of_introduce introduced
      rcases rest with heritage | ⟨first, _, inner⟩
      · obtain ⟨use, rfl, same, rfl⟩ := self_of_inHeritage (front.add name) heritage
        exact .selfInheritance stands same
      · rw [scopesOf_methods] at inner
        exact violates_of_inMethods methods inner
          (fun m which s member => .method stands which member) formed.2.1
          fun m which _ name repeated => .method stands which repeated

theorem violates_of_inStmts {around : List Enclosure} {levels : List Level} {names : List Token}
    (body : List Stmt) {err : StaticError}
    (failed : inStmts (contextOf around) (scopesOf levels) body = .error err)
    (stands : ∀ s ∈ body, Stands program around s) (formed : StmtsFormed body)
    (front : Front around levels names)
    (guards : Guards program around (names ++ body.flatMap Stmt.declared)) :
    Violates program err.rule err.token := by
  match body with
  | [] => cases failed
  | s :: rest =>
    simp only [inStmts, bind_eq_error, pure_ne_error, and_false, exists_false, or_false] at failed
    rw [List.flatMap_cons, ← List.append_assoc] at guards
    rcases failed with here | ⟨⟨scopes, first⟩, passed, later⟩
    · exact violates_of_inStmt s here (stands s List.mem_cons_self) formed.1 front guards.left
    · cases distances_of_inStmt s passed
      exact violates_of_inStmts rest later (fun t member => stands t (List.mem_cons_of_mem _ member))
        formed.2 (front.addAll s.declared) guards

theorem violates_of_inFunction {around : List Enclosure} {levels : List Level} (decl : FunctionDecl)
    {err : StaticError}
    (failed : inFunction (contextOf around) (scopesOf levels) decl = .error err)
    (stands : ∀ s ∈ decl.body, Stands program around s) (formed : decl.Formed) (inner : around ≠ [])
    (guards : Guards program around (decl.params ++ decl.body.flatMap Stmt.declared)) :
    Violates program err.rule err.token := by
  match decl with
  | .mk id _ params body =>
    have front : Front around (⟨functionOrigin id params body, []⟩ :: levels) [] :=
      .push inner _ levels
    simp only [inFunction, bind_eq_error, pure_ne_error, and_false, exists_false, or_false] at failed
    rcases failed with twice | ⟨scopes, introduced, within⟩
    · obtain ⟨name, rfl, repeated⟩ := repeats_of_parameters front twice
      exact guards.left inner name repeated
    · have same := scopes_of_parameters (⟨functionOrigin id params body, []⟩ :: levels) introduced
      subst same
      exact violates_of_inStmts body within stands formed.1 (front.addAll params) guards

theorem violates_of_inMethods {around : List Enclosure} {levels : List Level}
    {superclass : Option Variable} (methods : List FunctionDecl) {err : StaticError}
    (failed : inMethods (classContext superclass) (scopesOf levels) methods = .error err)
    (stands : ∀ m ∈ methods, ∀ s ∈ m.body,
      Stands program (.method m.name :: .classBody superclass :: around) s)
    (formed : MethodsFormed methods)
    (guards : ∀ m ∈ methods, Guards program (.method m.name :: .classBody superclass :: around)
      (m.params ++ m.body.flatMap Stmt.declared)) :
    Violates program err.rule err.token := by
  match methods with
  | [] => cases failed
  | m :: rest =>
    simp only [inMethods, bind_eq_error, pure_ne_error, and_false, exists_false, or_false] at failed
    rcases failed with here | ⟨first, _, later⟩
    · rw [← contextOf_method around] at here
      exact violates_of_inFunction m here (stands m List.mem_cons_self) formed.1 (by simp)
        (guards m List.mem_cons_self)
    · exact violates_of_inMethods rest later
        (fun other member => stands other (List.mem_cons_of_mem _ member)) formed.2
        fun other member => guards other (List.mem_cons_of_mem _ member)

end

theorem violates_of_error {e : StaticError} (formed : StmtsFormed program)
    (failed : distancesOf program = .error e) : Violates program e.rule e.token := by
  simp only [distancesOf, bind_eq_error, pure_ne_error, and_false, exists_false, or_false] at failed
  have failed : inStmts (contextOf []) (scopesOf []) program = .error e := failed
  exact violates_of_inStmts program failed (fun _ member => .top member) formed (.nil [] [])
    fun inner => absurd rfl inner

end LoxMachine.Static
