import LoxMachine.Proofs.Grammar.Cuts
import LoxMachine.Proofs.Grammar.Moved

namespace LoxMachine

def Expr.isTarget : Expr → Bool
  | read _ | get _ _ _ => true
  | literal _ _ | assign _ _ _ | unary _ _ _ | binary _ _ _ _ | logical _ _ _ _ | grouping _ _
  | call _ _ _ _ | set _ _ _ _ | this _ _ | super _ _ _ => false

namespace Grammar

open Reader

variable {room : Nat} {first : Token → Prop}

def PersistsExpr (room : Nat) (r r' : Reader Expr) : Prop :=
  ∀ {first : Token → Prop}, Persists room first True Expr.isTarget r r'

section Expressions

theorem persists_take {t : Token} (open_here : t.isEnding = false) :
    Persists room (fun u => u = t) True id take take :=
  Persists.take.strengthen fun _ same => same ▸ open_here

theorem persists_leaf {t : Token} (open_here : t.isEnding = false) {build : NodeId → Expr}
    (same : ∀ i j, (build i).isTarget = (build j).isTarget) :
    Persists room (fun u => u = t) True Expr.isTarget (do let _ ← take; node build)
      (do let _ ← take; node build) :=
  (persists_take open_here).bind fun _ _ _ => .node same

variable {nested nested' : Reader Expr} (inner : PersistsExpr room nested nested')

include inner in
theorem persists_suffix (target target' : Expr) :
    Persists (room + 1) (fun t => (t.isSymbol .leftParen || t.isSymbol .dot) = true) True
      Expr.isTarget (suffix nested target) (suffix nested' target') := by
  have opens : KindTest fun t => t.isSymbol .leftParen || t.isSymbol .dot :=
    .ofKind (fun kind => kind == .symbol .leftParen || kind == .symbol .dot) rfl
  refine (Persists.take.strengthen opens.goes).after fun opening _ same => ?_
  cases same
  split
  · refine (Persists.separatedBefore .rightParen inner).bind fun _ _ _ => ?_
    exact .perhaps ((Persists.expect _ _).bind fun _ _ _ => .node fun _ _ => rfl)
  · exact .perhaps ((Persists.expectName _).bind fun _ _ _ => .node fun _ _ => rfl)

include inner in
theorem persists_primary : PersistsExpr (room + 1) (primary nested) (primary nested') := by
  intro first
  refine Persists.current_bind fun t _ => ?_
  obtain ⟨kind, lexeme, line⟩ := t
  dsimp only
  split
  · exact persists_leaf rfl fun _ _ => rfl
  · exact persists_leaf rfl fun _ _ => rfl
  · exact persists_leaf rfl fun _ _ => rfl
  · exact persists_leaf rfl fun _ _ => rfl
  · exact persists_leaf rfl fun _ _ => rfl
  · refine (persists_take rfl).bind fun _ _ _ => ?_
    refine ((Persists.expect _ _).bind fun _ _ _ => ?_).perhaps
    exact .perhaps ((Persists.expectName _).bind fun _ _ _ => .node fun _ _ => rfl)
  · exact persists_leaf rfl fun _ _ => rfl
  · exact persists_leaf rfl fun _ _ => rfl
  · refine (persists_take rfl).after fun _ _ _ => ?_
    refine (inner.bind fun _ _ _ => ?_).perhaps
    exact .perhaps ((Persists.expect _ _).bind fun _ _ _ => .node fun _ _ => rfl)
  · exact .unexpected

include inner in
theorem persists_chain : PersistsExpr (room + 1) (chain nested) (chain nested') :=
  (persists_primary inner).bind fun _ _ same =>
    .repeatWhile (fun target target' _ => persists_suffix inner target target') same

theorem persists_prefixes (operators : List Token) {e e' : Expr} (same : e.isTarget = e'.isTarget) :
    Persists room (fun _ => True) False Expr.isTarget
      (operators.foldlM (fun right operator => node (.unary · operator right)) e)
      (operators.foldlM (fun right operator => node (.unary · operator right)) e') := by
  induction operators generalizing e e' with
  | nil => exact .pure same
  | cons operator rest ih =>
    rw [List.foldlM_cons, List.foldlM_cons]
    have wrapped : Persists room (fun _ => True) False Expr.isTarget
        (node (.unary · operator e)) (node (.unary · operator e')) := .node fun _ _ => rfl
    exact wrapped.bind fun _ _ same => ih same

include inner in
theorem persists_unary : PersistsExpr (room + 1) (unary nested) (unary nested') := by
  intro first
  have operators : KindTest isPrefixOperator :=
    .ofKind (fun kind => kind == .symbol .bang || kind == .symbol .minus) rfl
  have taking : Persists (room + 1) first False (List.map id) (many isPrefixOperator take)
      (many isPrefixOperator take) := .many (Persists.take.strengthen operators.goes)
  refine taking.before fun before before' same => ?_
  rw [List.map_id, List.map_id] at same
  subst same
  exact (persists_chain inner).bind fun _ _ same => persists_prefixes before.reverse same

theorem persists_leftToRight {tier : Tier} (accepts : KindTest tier.accepts)
    (builds : ∀ i left operator right, (tier.build i left operator right).isTarget = false)
    {operand operand' : Reader Expr} (each : PersistsExpr room operand operand') :
    PersistsExpr room (leftToRight tier operand) (leftToRight tier operand') := by
  intro first
  refine each.bind fun e e' same => .repeatWhile (fun left left' _ => ?_) same
  refine (Persists.take.strengthen accepts.goes).bind fun _ _ _ => ?_
  refine (each.bind fun _ _ _ => .node fun _ _ => ?_).perhaps
  rw [builds, builds]

theorem tiers_build_values : ∀ tier ∈ tiers, ∀ i left operator right,
    (tier.build i left operator right).isTarget = false := by
  intro tier member i left operator right
  simp only [tiers, List.mem_cons, List.not_mem_nil, or_false] at member
  rcases member with rfl | rfl | rfl | rfl | rfl | rfl <;> rfl

theorem persists_operatorsOver {operand operand' : Reader Expr}
    (each : PersistsExpr room operand operand') :
    PersistsExpr room (operatorsOver operand) (operatorsOver operand') := by
  have kindly := tiers_kindly
  have builds := tiers_build_values
  unfold operatorsOver
  generalize tiers = remaining at kindly builds
  intro first
  induction remaining generalizing first with
  | nil => exact each
  | cons tier rest ih =>
    rw [List.forall_mem_cons] at kindly builds
    exact persists_leftToRight kindly.1 builds.1 (ih kindly.2 builds.2)

def assigned (t : Token) (target value : Expr) : Reader Expr :=
  match target with
  | .read use => node (.assign · use.name value)
  | .get _ object name => node (.set · object name value)
  | _ => unexpected .assignmentTarget t

theorem assigned_eq (t : Token) {target : Expr} (value : Expr) (yes : target.isTarget = true) :
    ∃ build, (∀ i, (build i).isTarget = false) ∧ assigned t target value = node build := by
  cases target with
  | read use => exact ⟨(.assign · use.name value), fun _ => rfl, rfl⟩
  | get _ object name => exact ⟨(.set · object name value), fun _ => rfl, rfl⟩
  | _ => cases yes

theorem persists_assigned (t : Token) {target target' : Expr} (value value' : Expr)
    (yes : target.isTarget = true) (yes' : target'.isTarget = true) :
    Persists room first False Expr.isTarget (assigned t target value) (assigned t target' value') := by
  obtain ⟨build, plain, same⟩ := assigned_eq t value yes
  obtain ⟨build', plain', same'⟩ := assigned_eq t value' yes'
  rw [same, same']
  exact .node fun i j => by rw [plain, plain']

theorem fails_assigned (t : Token) {target : Expr} (value : Expr) (no : target.isTarget = false) :
    (assigned t target value).Fails := by
  intro c
  cases target with
  | read | get => cases no
  | _ => exact ⟨_, _, rfl⟩

include inner in
theorem persists_assignment : PersistsExpr (room + 1) (assignment nested) (assignment nested') := by
  intro first
  refine (persists_operatorsOver (persists_unary inner)).bind fun target target' same => ?_
  refine Persists.current_bind fun t _ => ?_
  split
  · rename_i equals
    have open_here := (KindTest.symbol .equal).goes t equals
    change Persists _ _ _ _ (take >>= fun _ => nested >>= assigned t target)
      (take >>= fun _ => nested' >>= assigned t target')
    cases fits : target.isTarget with
    | true =>
      refine ((persists_take open_here).after fun _ _ _ => ?_).perhaps
      refine (inner.bind fun value value' _ => ?_).perhaps
      exact persists_assigned t value value' fits (same.symm.trans fits)
    | false =>
      -- The error points back at the `=`, but with such a target the whole text has it as well.
      refine (Persists.doomed ?_ ?_).strengthen fun u here => here ▸ open_here
      · exact .bind fun _ => .bind fun value => fails_assigned t value fits
      · exact .bind fun _ => .bind fun value => fails_assigned t value (same.symm.trans fits)
  · exact .pure same

end Expressions

theorem persists_expressionWithin {n m : Nat} (enough : room ≤ n) (enough' : room ≤ m) :
    PersistsExpr room (fun c => expressionWithin n c) (fun c => expressionWithin m c) := by
  induction room generalizing n m with
  | zero => exact .none_room
  | succ room ih =>
    obtain ⟨n, rfl⟩ : ∃ less, n = less + 1 := ⟨n - 1, by omega⟩
    obtain ⟨m, rfl⟩ : ∃ less, m = less + 1 := ⟨m - 1, by omega⟩
    exact persists_assignment (ih (Nat.le_of_succ_le_succ enough) (Nat.le_of_succ_le_succ enough'))

theorem persists_expression : PersistsExpr room expression expression :=
  .limited (· + 1) Nat.le_succ fun _ enough enough' =>
    persists_expressionWithin enough enough'

def PersistsPhrase {α : Type} (room : Nat) (r r' : Reader α) : Prop :=
  ∀ {first : Token → Prop}, Persists room first True (fun _ => ()) r r'

theorem persists_closed {α : Type} (s : Symbol) (place : Place) (build build' : NodeId → α) :
    PersistsPhrase room (do let _ ← expect s place; node build)
      (do let _ ← expect s place; node build') :=
  (Persists.expect s place).bind fun _ _ _ => .node fun _ _ => rfl

theorem persists_expressionStatement : PersistsPhrase room expressionStatement expressionStatement :=
  persists_expression.bind fun _ _ _ => .perhaps (persists_closed _ _ _ _)

theorem persists_printStatement : PersistsPhrase room printStatement printStatement :=
  persists_expression.bind fun _ _ _ => .perhaps (persists_closed _ _ _ _)

theorem persists_returnStatement (keyword : Token) :
    PersistsPhrase room (returnStatement keyword) (returnStatement keyword) :=
  (Persists.optionalBefore .semicolon persists_expression).before fun _ _ _ =>
    persists_closed _ _ _ _

theorem persists_varDeclaration : PersistsPhrase room varDeclaration varDeclaration := by
  intro first
  refine (Persists.expectName .variable).bind fun _ _ _ => .perhaps ?_
  refine Persists.takeIf_bind (KindTest.symbol .equal) ?_ (persists_closed _ _ _ _)
  have value : Persists room (fun _ => True) True (fun _ => ()) (some <$> expression)
      (some <$> expression) := persists_expression.map fun _ _ _ => rfl
  exact .perhaps (value.bind fun _ _ _ => .perhaps (persists_closed _ _ _ _))

section Nested

variable {declaration declaration' statement statement' : Reader Stmt}
  (declarations : PersistsPhrase room declaration declaration')
  (statements : PersistsPhrase room statement statement')

include declarations in
theorem persists_block : PersistsPhrase room (block declaration) (block declaration') := by
  refine (Persists.many declarations).before fun _ _ _ => ?_
  exact (Persists.expect _ _).bind fun _ _ _ => .pure rfl

include declarations in
theorem persists_function (sort : FunctionSort) :
    PersistsPhrase room (function declaration sort) (function declaration' sort) := by
  refine (Persists.expectName _).bind fun _ _ _ => ?_
  refine ((Persists.expect _ _).bind fun _ _ _ => ?_).perhaps
  refine (Persists.separatedBefore .rightParen (Persists.expectName .parameter)).bind fun _ _ _ => ?_
  refine ((Persists.expect _ _).bind fun _ _ _ => ?_).perhaps
  refine ((Persists.expect _ _).bind fun _ _ _ => ?_).perhaps
  exact .perhaps ((persists_block declarations).bind fun _ _ _ => .node fun _ _ => rfl)

include declarations in
theorem persists_classBody (name name' : Token) (superclass superclass' : Option Variable) :
    PersistsPhrase room
      (do
        let _ ← expect .leftBrace .beforeClassBody
        let methods ← many (fun t => !t.isSymbol .rightBrace && !t.isEnding)
          (function declaration .method)
        let _ ← expect .rightBrace .afterClassBody
        node (Stmt.classDecl · name superclass methods))
      (do
        let _ ← expect .leftBrace .beforeClassBody
        let methods ← many (fun t => !t.isSymbol .rightBrace && !t.isEnding)
          (function declaration' .method)
        let _ ← expect .rightBrace .afterClassBody
        node (Stmt.classDecl · name' superclass' methods)) := by
  refine (Persists.expect _ _).bind fun _ _ _ => ?_
  refine (Persists.many (persists_function declarations .method)).bind fun _ _ _ => ?_
  exact .perhaps (persists_closed _ _ _ _)

include declarations in
theorem persists_classDeclaration :
    PersistsPhrase room (classDeclaration declaration) (classDeclaration declaration') := by
  refine (Persists.expectName _).bind fun name name' _ => .perhaps ?_
  refine Persists.takeIf_bind (KindTest.symbol .less) ?_ (persists_classBody declarations _ _ _ _)
  refine ((Persists.expectName _).bind fun superName superName' _ => ?_).perhaps
  have use : Persists room (fun _ => True) False (fun _ => ()) (node (Variable.mk · superName))
      (node (Variable.mk · superName')) := .node fun _ _ => rfl
  have superclass : Persists room (fun _ => True) False (fun _ => ())
      (some <$> node (Variable.mk · superName)) (some <$> node (Variable.mk · superName')) :=
    use.map fun _ _ _ => rfl
  exact .perhaps (superclass.before fun _ _ _ => persists_classBody declarations _ _ _ _)

theorem persists_forInitializer : PersistsPhrase room forInitializer forInitializer := by
  intro first
  refine Persists.takeIf_bind (KindTest.symbol .semicolon) (.pure rfl) ?_
  refine Persists.takeIf_bind (KindTest.word .varWord) (.perhaps ?_) ?_
  · exact persists_varDeclaration.map fun _ _ _ => rfl
  · exact persists_expressionStatement.map fun _ _ _ => rfl

theorem persists_forLoopOf (initializer initializer' : Option Stmt)
    (condition condition' increment increment' : Option Expr) (body body' : Stmt) :
    Persists room first False (fun _ => ()) (forLoopOf initializer condition increment body)
      (forLoopOf initializer' condition' increment' body') := by
  have builds : ∀ initializer condition increment body c, ∃ s i,
      forLoopOf initializer condition increment body c = .ok s ⟨c.rest, i⟩ ∧ () = () := by
    intro initializer condition increment body c
    cases initializer <;> cases condition <;> cases increment <;> exact ⟨_, _, rfl, rfl⟩
  exact .still (builds _ _ _ _) (builds _ _ _ _)

include statements in
theorem persists_forLoop : PersistsPhrase room (forLoop statement) (forLoop statement') := by
  refine (Persists.expect _ _).bind fun _ _ _ => ?_
  refine (persists_forInitializer.bind fun _ _ _ => ?_).perhaps
  refine (Persists.optionalBefore .semicolon persists_expression).bind fun _ _ _ => ?_
  refine ((Persists.expect _ _).bind fun _ _ _ => ?_).perhaps
  refine (Persists.optionalBefore .rightParen persists_expression).bind fun _ _ _ => ?_
  refine ((Persists.expect _ _).bind fun _ _ _ => ?_).perhaps
  exact .perhaps (statements.bind fun _ _ _ => persists_forLoopOf _ _ _ _ _ _ _ _)

include statements in
theorem persists_conditional : PersistsPhrase room (conditional statement) (conditional statement') := by
  refine (Persists.expect _ _).bind fun _ _ _ => ?_
  refine (persists_expression.bind fun condition condition' _ => ?_).perhaps
  refine ((Persists.expect _ _).bind fun _ _ _ => ?_).perhaps
  refine (statements.bind fun yes yes' _ => ?_).perhaps
  have skipped : Persists room (fun _ => True) False (fun _ => ())
      (node (Stmt.branch · condition yes none)) (node (Stmt.branch · condition' yes' none)) :=
    .node fun _ _ => rfl
  have no : Persists room (fun _ => True) True (fun _ => ()) (some <$> statement)
      (some <$> statement') := statements.map fun _ _ _ => rfl
  refine Persists.takeIf_bind (KindTest.word .elseWord) ?_ skipped
  exact .perhaps (no.bind fun _ _ _ => .node fun _ _ => rfl)

include statements in
theorem persists_whileLoop : PersistsPhrase room (whileLoop statement) (whileLoop statement') := by
  refine (Persists.expect _ _).bind fun _ _ _ => ?_
  refine (persists_expression.bind fun _ _ _ => ?_).perhaps
  refine ((Persists.expect _ _).bind fun _ _ _ => ?_).perhaps
  exact .perhaps (statements.bind fun _ _ _ => .node fun _ _ => rfl)

theorem persists_behind {α : Type} {t : Token} (open_here : t.isEnding = false) {r r' : Reader α}
    (rest : PersistsPhrase room r r') :
    Persists (room + 1) (fun u => u = t) True (fun _ => ()) (do let _ ← take; r)
      (do let _ ← take; r') :=
  (persists_take open_here).after fun _ _ _ => .perhaps rest

include declarations statements in
theorem persists_statementOver :
    PersistsPhrase (room + 1) (statementOver declaration statement)
      (statementOver declaration' statement') := by
  intro first
  refine Persists.current_bind fun t _ => ?_
  obtain ⟨kind, lexeme, line⟩ := t
  dsimp only
  split
  · exact persists_behind rfl (persists_forLoop statements)
  · exact persists_behind rfl (persists_conditional statements)
  · exact persists_behind rfl persists_printStatement
  · exact persists_behind rfl (persists_returnStatement _)
  · exact persists_behind rfl (persists_whileLoop statements)
  · exact persists_behind rfl
      ((persists_block declarations).bind fun _ _ _ => .node fun _ _ => rfl)
  · exact persists_expressionStatement

include declarations statements in
theorem persists_declarationOver :
    PersistsPhrase (room + 1) (declarationOver declaration statement)
      (declarationOver declaration' statement') := by
  intro first
  refine Persists.current_bind fun t _ => ?_
  obtain ⟨kind, lexeme, line⟩ := t
  dsimp only
  split
  · exact persists_behind rfl (persists_classDeclaration declarations)
  · exact persists_behind rfl ((persists_function declarations .function).map fun _ _ _ => rfl)
  · exact persists_behind rfl persists_varDeclaration
  · exact persists_statementOver declarations statements

end Nested

theorem persists_declarationWithin {n m : Nat} (enough : room ≤ n) (enough' : room ≤ m) :
    PersistsPhrase room (fun c => declarationWithin n c) (fun c => declarationWithin m c) ∧
      PersistsPhrase room (fun c => statementWithin n c) (fun c => statementWithin m c) := by
  induction room generalizing n m with
  | zero => exact ⟨.none_room, .none_room⟩
  | succ room ih =>
    obtain ⟨n, rfl⟩ : ∃ less, n = less + 1 := ⟨n - 1, by omega⟩
    obtain ⟨m, rfl⟩ : ∃ less, m = less + 1 := ⟨m - 1, by omega⟩
    obtain ⟨declarations, statements⟩ :=
      ih (Nat.le_of_succ_le_succ enough) (Nat.le_of_succ_le_succ enough')
    exact ⟨persists_declarationOver declarations statements,
      persists_statementOver declarations statements⟩

theorem persists_declaration : PersistsPhrase room declaration declaration :=
  .limited (· + 1) Nat.le_succ fun _ enough enough' =>
    (persists_declarationWithin enough enough').1

theorem persists_program : Persists room first False (List.map fun _ => ()) program program :=
  .many persists_declaration

theorem parse_ok {i : NodeId} {tokens : List Token} {body : List Stmt} :
    (parse i tokens).1 = .ok body ↔ ∃ c, program ⟨tokens, i⟩ = .ok body c := by
  unfold parse
  cases program ⟨tokens, i⟩ with
  | ok found c =>
    constructor
    · rintro ⟨⟩
      exact ⟨c, rfl⟩
    · rintro ⟨_, ⟨⟩⟩
      rfl
  | error e c => exact ⟨nofun, nofun⟩

theorem parse_error {i : NodeId} {tokens : List Token} {e : SyntaxError} :
    (parse i tokens).1 = .error e ↔ ∃ c, program ⟨tokens, i⟩ = .error e c := by
  unfold parse
  cases program ⟨tokens, i⟩ with
  | ok found c => exact ⟨nofun, nofun⟩
  | error other c =>
    constructor
    · rintro ⟨⟩
      exact ⟨c, rfl⟩
    · rintro ⟨_, ⟨⟩⟩
      rfl

/-- The tokens are a program, or more is wanted where the closing token stands. -/
def Viable (i : NodeId) (tokens : List Token) (closing : Token) : Prop :=
  (∃ body, (parse i (tokens ++ [closing])).1 = .ok body) ∨
    ∃ expected, (parse i (tokens ++ [closing])).1 = .error (.unexpected expected closing)

theorem viable_of_stops {takes : Prop} {i : NodeId} {tokens : List Token} {closing : Token}
    (stops : Stops takes closing (program ⟨tokens ++ [closing], i⟩)) : Viable i tokens closing := by
  rcases stops with ⟨-, body, stop, read⟩ | ⟨expected, c, read⟩
  · exact .inl ⟨body, parse_ok.mpr ⟨_, read⟩⟩
  · exact .inr ⟨expected, parse_error.mpr ⟨c, read⟩⟩

/-- What stands in front of a cut through a program. -/
theorem viable_of_cut {i j : NodeId} {front behind : List Token} {closing : Token}
    {body : List Stmt} (accepted : (parse i (front ++ behind)).1 = .ok body) (some_behind : behind ≠ [])
    (closes : closing.isEnding = true) : Viable j front closing := by
  obtain ⟨next, later, rfl⟩ := List.exists_cons_of_ne_nil some_behind
  have persists : Persists (front.length + 1) (fun _ => True) False (List.map fun _ => ()) program
      program := persists_program
  obtain ⟨stop, read⟩ := parse_ok.mp accepted
  cases front with
  | nil => exact viable_of_stops (persists.atEnd closing j closes Nat.zero_lt_one True.intro)
  | cons t front =>
    rcases persists.within t front closing next later j i closes (Nat.lt_succ_self _) True.intro with
      stops | ⟨body', _, _, _, _, _, cut, -⟩ | ⟨_, _, e, c, -, whole⟩
    · exact viable_of_stops stops
    · exact .inl ⟨body', parse_ok.mpr ⟨_, cut⟩⟩
    · cases whole.symm.trans read

/-- Every prefix of a program is viable: the grammar never rejects it for a token that it has. -/
theorem viable_of_accepted {i : NodeId} {tokens front : List Token} {ending closing : Token}
    {program : List Stmt} (accepted : (parse i (tokens ++ [ending])).1 = .ok program)
    (begins : front <+: tokens) (closes : closing.isEnding = true) (j : NodeId) :
    Viable j front closing := by
  obtain ⟨rest, rfl⟩ := begins
  rw [List.append_assoc] at accepted
  exact viable_of_cut accepted (List.append_ne_nil_of_right_ne_nil _ (List.cons_ne_nil _ _)) closes

def assignmentTokens : List Token :=
  [⟨.identifier, "a", 1⟩, ⟨.symbol .dot, ".", 1⟩, ⟨.identifier, "b", 1⟩, ⟨.symbol .equal, "=", 1⟩,
    ⟨.identifier, "f", 1⟩, ⟨.symbol .leftParen, "(", 1⟩, ⟨.identifier, "c", 1⟩,
    ⟨.symbol .rightParen, ")", 1⟩, ⟨.symbol .semicolon, ";", 1⟩]

theorem viable_of_assignment :
    (∃ program, (parse 0 (assignmentTokens ++ [.ending 1])).1 = .ok program) ∧
      assignmentTokens.take 6 <+: assignmentTokens ∧ (Token.ending 2).isEnding = true ∧
      Viable 7 (assignmentTokens.take 6) (.ending 2) := by
  have accepted : ∃ program, (parse 0 (assignmentTokens ++ [.ending 1])).1 = .ok program := ⟨_, rfl⟩
  obtain ⟨program, read⟩ := accepted
  have begins : assignmentTokens.take 6 <+: assignmentTokens := List.take_prefix _ _
  exact ⟨⟨program, read⟩, begins, rfl, viable_of_accepted read begins rfl 7⟩

end Grammar

end LoxMachine
