import LoxMachine.Proofs.Grammar.Builds
import LoxMachine.Proofs.Grammar.Carries
import LoxMachine.Proofs.Recode.Basic
import LoxMachine.Proofs.Scope.Renumbered
import LoxMachine.Proofs.Token.Joined

namespace LoxMachine

def Respelling.later (lines : Nat) : Respelling :=
  ⟨fun _ => Token.later lines, fun _ => Token.later lines, fun _ => Token.later lines⟩

section Trees

variable (lines k : Nat)

def Expr.moved (e : Expr) : Expr := (e.renumber k).recode (.later lines)

def Stmt.moved (s : Stmt) : Stmt := (s.renumber k).recode (.later lines)

def FunctionDecl.moved (decl : FunctionDecl) : FunctionDecl := (decl.renumber k).recode (.later lines)

end Trees

section Trees

variable {lines k : Nat}

theorem exprs_moved (es : List Expr) :
    exprsRecode (.later lines) (exprsRenumber k es) = es.map (·.moved lines k) := by
  induction es with
  | nil => rfl
  | cons e rest ih => exact congrArg (e.moved lines k :: ·) ih

theorem stmts_moved (body : List Stmt) :
    stmtsRecode (.later lines) (stmtsRenumber k body) = body.map (·.moved lines k) := by
  induction body with
  | nil => rfl
  | cons s rest ih => exact congrArg (s.moved lines k :: ·) ih

theorem methods_moved (methods : List FunctionDecl) :
    methodsRecode (.later lines) (methodsRenumber k methods) = methods.map (·.moved lines k) := by
  induction methods with
  | nil => rfl
  | cons m rest ih => exact congrArg (m.moved lines k :: ·) ih

end Trees

namespace Grammar

open Reader Reader.Carries

variable {lines k : Nat} {first : Token → Prop}

theorem later_kind (t : Token) : (Token.later lines t).kind = t.kind := rfl

theorem later_tight (t : Token) : Tight t (Token.later lines t) := rfl

def CarriesExpr (lines k : Nat) (r r' : Reader Expr) : Prop :=
  ∀ {first}, Carries (Token.later lines) k first Tight True (Expr.moved lines k) r r'

section Expressions

variable {nested nested' : Reader Expr} (inner : CarriesExpr lines k nested nested')

include inner in
theorem carries_suffix (target : Expr) :
    Carries (Token.later lines) k (fun t => (t.isSymbol .leftParen || t.isSymbol .dot) = true) Tight
      True (Expr.moved lines k) (suffix nested target) (suffix nested' (target.moved lines k)) := by
  have opens : KindTest fun t => t.isSymbol .leftParen || t.isSymbol .dot :=
    .ofKind (fun kind => kind == .symbol .leftParen || kind == .symbol .dot) rfl
  refine ((take later_kind).strengthen opens.goes).andThen fun opening => ?_
  change Carries _ _ _ _ _ _ _ (if opening.isSymbol .leftParen then _ else _)
  split
  · have arguments : Carries (Token.later lines) k (fun _ => True) Tight False
        (List.map (Expr.moved lines k)) (Reader.separatedBefore .rightParen nested)
        (Reader.separatedBefore .rightParen nested') :=
      Carries.separatedBefore later_kind .rightParen later_tight (fun _ _ => id) inner
    refine arguments.bind (fun es => ?_) later_tight fun _ _ => id
    refine perhaps ((expect later_kind _ _).andThen fun paren => node fun i => ?_)
    change Expr.call _ _ _ _ = _
    rw [exprs_moved]
    rfl
  · exact perhaps ((expectName later_kind _).andThen fun name => node fun i => rfl)

theorem carries_leaf {t : Token} (open_here : t.isEnding = false) {build build' : NodeId → Expr}
    (same : ∀ i, (build i).moved lines k = build' (i + k)) :
    Carries (Token.later lines) k (fun u => u = t) Tight True (Expr.moved lines k)
      (do let _ ← Reader.take; Reader.node build) (do let _ ← Reader.take; Reader.node build') :=
  (take_of later_kind open_here).andThen fun _ => node same

include inner in
theorem carries_primary : CarriesExpr lines k (primary nested) (primary nested') := by
  intro first
  refine current_taking fun t _ => ?_
  obtain ⟨kind, lexeme, line⟩ := t
  dsimp only [Token.later]
  split
  · exact carries_leaf rfl fun _ => rfl
  · exact carries_leaf rfl fun _ => rfl
  · exact carries_leaf rfl fun _ => rfl
  · exact carries_leaf rfl fun _ => rfl
  · exact carries_leaf rfl fun _ => rfl
  · refine (take_of later_kind rfl).andThen fun _ => perhaps ?_
    refine (expect later_kind _ _).andThen fun _ => perhaps ?_
    exact (expectName later_kind _).andThen fun _ => node fun _ => rfl
  · exact carries_leaf rfl fun _ => rfl
  · exact carries_leaf rfl fun _ => rfl
  · refine (take_of later_kind rfl).andThen fun _ => perhaps ?_
    refine inner.before (fun e => ?_) later_tight
    exact (expect later_kind _ _).andThen fun _ => node fun _ => rfl
  · exact unexpected

include inner in
theorem carries_chain : CarriesExpr lines k (chain nested) (chain nested') := by
  intro first
  have opens : KindTest fun t => t.isSymbol .leftParen || t.isSymbol .dot :=
    .ofKind (fun kind => kind == .symbol .leftParen || kind == .symbol .dot) rfl
  refine (carries_primary inner).bind (fun e => ?_) later_tight fun _ _ => id
  exact repeatWhile later_kind opens later_tight (fun _ _ => id) opens.kind (carries_suffix inner) e

include inner in
theorem carries_unary : CarriesExpr lines k (unary nested) (unary nested') := by
  intro first
  have operators : KindTest isPrefixOperator :=
    .ofKind (fun kind => kind == .symbol .bang || kind == .symbol .minus) rfl
  have taking : Carries (Token.later lines) k first Tight False (List.map (Token.later lines))
      (many isPrefixOperator take) (many isPrefixOperator take) :=
    Carries.many later_kind operators later_tight (fun _ _ => id) operators.kind later_tight
      (((take later_kind).strengthen operators.goes))
  refine taking.before (fun before => ?_) later_tight
  refine (carries_chain inner).bind (fun e => ?_) later_tight fun _ _ => id
  rw [← List.map_reverse]
  refine mono (foldlM (fun right operator => ?_) before.reverse e) fun _ _ _ => True.intro
  exact node fun _ => rfl

theorem carries_leftToRight {tier : Tier} (accepts : KindTest tier.accepts)
    (builds : ∀ i left operator right, (tier.build i left operator right).moved lines k =
      tier.build (i + k) (left.moved lines k) (operator.later lines) (right.moved lines k))
    {operand operand' : Reader Expr} (each : CarriesExpr lines k operand operand') :
    CarriesExpr lines k (leftToRight tier operand) (leftToRight tier operand') := by
  intro first
  refine each.bind (fun e => ?_) later_tight fun _ _ => id
  refine repeatWhile later_kind accepts later_tight (fun _ _ => id) accepts.kind (fun left => ?_) e
  refine ((take later_kind).strengthen accepts.goes).andThen fun operator => perhaps ?_
  exact each.bind (fun right => node fun i => builds i left operator right) later_tight fun _ _ => id

theorem tiers_kindly : ∀ tier ∈ tiers, KindTest tier.accepts := by
  intro tier member
  simp only [tiers, List.mem_cons, List.not_mem_nil, or_false] at member
  have words : ∀ word, KindTest (logicalTier word).accepts := KindTest.word
  have symbols : ∀ symbols, KindTest (binaryTier symbols).accepts := fun symbols =>
    .ofKind (fun kind => symbols.any fun s => kind == .symbol s)
      (List.any_eq_false.mpr fun _ _ => Bool.false_ne_true)
  rcases member with rfl | rfl | rfl | rfl | rfl | rfl
  · exact words _
  · exact words _
  all_goals exact symbols _

theorem tiers_moved : ∀ tier ∈ tiers, ∀ i left operator right,
    (tier.build i left operator right).moved lines k =
      tier.build (i + k) (left.moved lines k) (operator.later lines) (right.moved lines k) := by
  intro tier member i left operator right
  simp only [tiers, List.mem_cons, List.not_mem_nil, or_false] at member
  rcases member with rfl | rfl | rfl | rfl | rfl | rfl <;> rfl

theorem carries_operatorsOver {operand operand' : Reader Expr}
    (each : CarriesExpr lines k operand operand') :
    CarriesExpr lines k (operatorsOver operand) (operatorsOver operand') := by
  have kindly := tiers_kindly
  have moved := @tiers_moved lines k
  unfold operatorsOver
  generalize tiers = remaining at kindly moved
  intro first
  induction remaining generalizing first with
  | nil => exact each
  | cons tier rest ih =>
    rw [List.forall_mem_cons] at kindly moved
    exact carries_leftToRight kindly.1 moved.1 (ih kindly.2 moved.2)

include inner in
theorem carries_assignment : CarriesExpr lines k (assignment nested) (assignment nested') := by
  intro first
  refine (carries_operatorsOver (carries_unary inner)).bind (fun target => ?_) later_tight
    fun _ _ => id
  refine current_bind later_kind (fun _ _ => id) fun t u alike _ => ?_
  rw [← (KindTest.symbol .equal).kind t u alike]
  split
  · rename_i equals
    refine perhaps ?_
    refine (take_of later_kind ((KindTest.symbol .equal).goes t equals)).andThen fun _ => perhaps ?_
    refine inner.bind (fun value => ?_) later_tight fun _ _ => id
    cases target with
    | read use => exact node fun _ => rfl
    | get id object name => exact node fun _ => rfl
    | _ => exact unexpected
  · exact pure rfl

end Expressions

theorem carries_expressionWithin {n m : Nat} (deeper : n ≤ m) :
    CarriesExpr lines k (fun c => expressionWithin n c) (fun c => expressionWithin m c) := by
  induction n generalizing m with
  | zero =>
    intro first c a c' here read
    cases read
  | succ n ih =>
    obtain ⟨m, rfl⟩ : ∃ less, m = less + 1 := ⟨m - 1, by omega⟩
    exact carries_assignment (ih (Nat.le_of_succ_le_succ deeper))

theorem carries_limited {α β : Type} {looks : Token → Token → Prop} {takes : Prop} {change : α → β}
    {r : Nat → Reader α} {r' : Nat → Reader β}
    (each : ∀ {n m : Nat}, n ≤ m →
      Carries (Token.later lines) k first looks takes change (r n) (r' m)) :
    Carries (Token.later lines) k first looks takes change (fun c => r (c.rest.length + 1) c)
      (fun c => r' (c.rest.length + 1) c) := by
  intro c a c' here read
  obtain ⟨taken, split, open_taken, some_taken, _⟩ := each (Nat.le_refl _) c a c' here read
  refine ⟨taken, split, open_taken, some_taken, fun other long alike => ?_⟩
  have enough : c.rest.length + 1 ≤ (taken.map (Token.later lines) ++ other).length + 1 := by
    rw [split, List.length_append, List.length_append, List.length_map]
    exact Nat.succ_le_succ (Nat.add_le_add_left long _)
  obtain ⟨taken', split', _, _, elsewhere⟩ := each enough c a c' here read
  obtain rfl : taken' = taken := List.append_cancel_right (split'.symm.trans split)
  exact elsewhere other long alike

theorem carries_expression : CarriesExpr lines k expression expression :=
  carries_limited fun deeper => carries_expressionWithin deeper

theorem carries_optional (closing : Symbol) :
    Carries (Token.later lines) k first Tight False (Option.map (Expr.moved lines k))
      (optionalBefore closing expression) (optionalBefore closing expression) :=
  Carries.optionalBefore later_kind closing carries_expression

theorem later_loose (t : Token) : Loose t (Token.later lines t) := rfl

def CarriesStmt (lines k : Nat) (r r' : Reader Stmt) : Prop :=
  ∀ {first}, Carries (Token.later lines) k first Loose True (Stmt.moved lines k) r r'

theorem carries_expressionStatement : CarriesStmt lines k expressionStatement expressionStatement := by
  intro first
  refine carries_expression.before (fun e => ?_) later_tight
  exact (expect later_kind _ _).andThen fun _ => node fun _ => rfl

theorem carries_variable (name : Token) (value : Option Expr) :
    Carries (Token.later lines) k first Loose True (Stmt.moved lines k)
      (do let _ ← Reader.expect .semicolon .afterVariable; Reader.node (.var · name value))
      (do
        let _ ← Reader.expect .semicolon .afterVariable
        Reader.node (.var · (name.later lines) (value.map (·.moved lines k)))) := by
  refine (expect later_kind _ _).andThen fun _ => node fun i => ?_
  cases value <;> rfl

theorem carries_varDeclaration : CarriesStmt lines k varDeclaration varDeclaration := by
  intro first
  refine (expectName later_kind _).andThen fun name => perhaps ?_
  refine takeIf_bind later_kind (KindTest.symbol .equal) ?_ ?_ (.inl True.intro)
  · have value : Carries (Token.later lines) k (fun _ => True) Tight True
        (Option.map (Expr.moved lines k)) (some <$> expression) (some <$> expression) :=
      carries_expression.map (fun _ => rfl) later_tight
    exact perhaps (value.before (carries_variable name) later_tight)
  · exact carries_variable name none

theorem closing_kindly : KindTest fun t => !t.isSymbol .rightBrace && !t.isEnding :=
  .ofKind (fun kind => !(kind == .symbol .rightBrace) && !(kind == .endOfInput)) rfl

section Nested

variable {declaration declaration' statement statement' : Reader Stmt}
  (declarations : CarriesStmt lines k declaration declaration')
  (statements : CarriesStmt lines k statement statement')

include declarations in
theorem carries_block :
    Carries (Token.later lines) k first Loose True (List.map (Stmt.moved lines k))
      (block declaration) (block declaration') := by
  have body : Carries (Token.later lines) k first Tight False (List.map (Stmt.moved lines k))
      (many (fun t => !t.isSymbol .rightBrace && !t.isEnding) declaration)
      (many (fun t => !t.isSymbol .rightBrace && !t.isEnding) declaration') :=
    Carries.many later_kind closing_kindly later_loose (fun _ _ => Tight.loose)
      closing_kindly.kind later_tight declarations
  refine body.before (fun body => ?_) later_tight
  exact (expect later_kind _ _).andThen fun _ => pure rfl

include declarations in
theorem carries_function (sort : FunctionSort) :
    Carries (Token.later lines) k first Loose True (FunctionDecl.moved lines k)
      (function declaration sort) (function declaration' sort) := by
  refine (expectName later_kind _).andThen fun name => perhaps ?_
  refine (expect later_kind _ _).andThen fun _ => perhaps ?_
  have params : Carries (Token.later lines) k (fun _ => True) Tight False
      (List.map (Token.later lines))
      (separatedBefore .rightParen (expectName .parameter))
      (separatedBefore .rightParen (expectName .parameter)) :=
    Carries.separatedBefore later_kind .rightParen later_tight (fun _ _ => id)
      (Carries.expectName later_kind .parameter)
  refine params.before (fun params => ?_) later_tight
  refine (expect later_kind _ _).andThen fun _ => perhaps ?_
  refine (expect later_kind _ _).andThen fun _ => perhaps ?_
  refine (carries_block declarations).bind (fun body => node fun i => ?_) later_loose fun _ _ => id
  rw [← stmts_moved]
  rfl

include declarations in
theorem carries_classBody (name : Token) (superclass : Option Variable) :
    Carries (Token.later lines) k first Loose True (Stmt.moved lines k)
      (do
        let _ ← Reader.expect .leftBrace .beforeClassBody
        let methods ←
          Reader.many (fun t => !t.isSymbol .rightBrace && !t.isEnding) (function declaration .method)
        let _ ← Reader.expect .rightBrace .afterClassBody
        Reader.node (.classDecl · name superclass methods))
      (do
        let _ ← Reader.expect .leftBrace .beforeClassBody
        let methods ←
          Reader.many (fun t => !t.isSymbol .rightBrace && !t.isEnding) (function declaration' .method)
        let _ ← Reader.expect .rightBrace .afterClassBody
        Reader.node (.classDecl · (name.later lines)
          (superclass.map fun use => (use.renumber k).recode (.later lines)) methods)) := by
  refine (expect later_kind _ _).andThen fun _ => perhaps ?_
  have methods : Carries (Token.later lines) k (fun _ => True) Tight False
      (List.map (FunctionDecl.moved lines k))
      (Reader.many (fun t => !t.isSymbol .rightBrace && !t.isEnding) (function declaration .method))
      (Reader.many (fun t => !t.isSymbol .rightBrace && !t.isEnding)
        (function declaration' .method)) :=
    Carries.many later_kind closing_kindly later_loose (fun _ _ => Tight.loose)
      closing_kindly.kind later_tight (carries_function declarations .method)
  refine methods.before (fun methods => ?_) later_tight
  refine (expect later_kind _ _).andThen fun _ => node fun i => ?_
  rw [← methods_moved]
  cases superclass <;> rfl

include declarations in
theorem carries_classDeclaration :
    CarriesStmt lines k (classDeclaration declaration) (classDeclaration declaration') := by
  intro first
  refine (expectName later_kind _).andThen fun name => perhaps ?_
  refine takeIf_bind later_kind (KindTest.symbol .less) ?_ ?_ (.inl True.intro)
  · refine perhaps ((expectName later_kind _).andThen fun superName => perhaps ?_)
    have use : Carries (Token.later lines) k (fun _ => True) Loose False
        (fun use : Variable => (use.renumber k).recode (.later lines))
        (Reader.node (Variable.mk · superName))
        (Reader.node (Variable.mk · (superName.later lines))) := node fun _ => rfl
    have superclass : Carries (Token.later lines) k (fun _ => True) Loose False
        (Option.map fun use : Variable => (use.renumber k).recode (.later lines))
        (some <$> Reader.node (Variable.mk · superName))
        (some <$> Reader.node (Variable.mk · (superName.later lines))) :=
      use.map (fun _ => rfl) later_loose
    exact superclass.before (carries_classBody declarations name) later_loose
  · exact carries_classBody declarations name none

theorem carries_forInitializer :
    Carries (Token.later lines) k first Loose True (Option.map (Stmt.moved lines k))
      forInitializer forInitializer := by
  refine takeIf_bind later_kind (KindTest.symbol .semicolon) (pure rfl) ?_ (.inl True.intro)
  refine takeIf_bind later_kind (KindTest.word .varWord) ?_ ?_ (.inl True.intro)
  · exact perhaps (carries_varDeclaration.map (fun _ => rfl) later_loose)
  · exact carries_expressionStatement.map (fun _ => rfl) later_loose

theorem carries_loop (initializer : Option Stmt) (condition : Expr) (body : Stmt) :
    Carries (Token.later lines) k first Loose False (Stmt.moved lines k)
      (do
        let loop ← Reader.node (.loop · condition body)
        match initializer with
        | none => return loop
        | some s => Reader.node (.block · [s, loop]))
      (do
        let loop ← Reader.node (.loop · (condition.moved lines k) (body.moved lines k))
        match initializer.map (·.moved lines k) with
        | none => return loop
        | some s => Reader.node (.block · [s, loop])) := by
  refine node_bind (Stmt.moved lines k) (fun _ => rfl) fun loop => ?_
  cases initializer with
  | none => exact pure rfl
  | some s => exact node fun _ => rfl

theorem carries_forLoopOf (initializer : Option Stmt) (condition increment : Option Expr)
    (body : Stmt) :
    Carries (Token.later lines) k first Loose False (Stmt.moved lines k)
      (forLoopOf initializer condition increment body)
      (forLoopOf (initializer.map (·.moved lines k)) (condition.map (·.moved lines k))
        (increment.map (·.moved lines k)) (body.moved lines k)) := by
  have conditions : ∀ (first : Token → Prop) (body : Stmt),
      Carries (Token.later lines) k first Loose False (Stmt.moved lines k)
        (forLoopOf initializer condition none body)
        (forLoopOf (initializer.map (·.moved lines k)) (condition.map (·.moved lines k)) none
          (body.moved lines k)) := by
    intro first body
    cases condition with
    | some e => exact carries_loop initializer e body
    | none =>
      unfold forLoopOf
      simp only [pure_bind, Option.map_none]
      refine node_bind (Expr.moved lines k) (fun _ => rfl) fun e => ?_
      exact carries_loop initializer e body
  cases increment with
  | none => exact conditions first body
  | some e =>
    refine node_bind (Stmt.moved lines k) (fun _ => rfl) fun step => ?_
    refine node_bind (Stmt.moved lines k) (fun _ => rfl) fun body => ?_
    exact conditions _ body

include statements in
theorem carries_forLoop : CarriesStmt lines k (forLoop statement) (forLoop statement') := by
  intro first
  refine (expect later_kind _ _).andThen fun _ => perhaps ?_
  refine carries_forInitializer.bind (fun initializer => perhaps ?_) later_loose fun _ _ => id
  refine (carries_optional .semicolon).before (fun condition => ?_) later_tight
  refine (expect later_kind _ _).andThen fun _ => perhaps ?_
  refine (carries_optional .rightParen).before (fun increment => ?_) later_tight
  refine (expect later_kind _ _).andThen fun _ => perhaps ?_
  exact statements.bind (carries_forLoopOf initializer condition increment) later_loose fun _ _ => id

include statements in
theorem carries_conditional : CarriesStmt lines k (conditional statement) (conditional statement') := by
  intro first
  refine (expect later_kind _ _).andThen fun _ => perhaps ?_
  refine carries_expression.before (fun condition => ?_) later_tight
  refine (expect later_kind _ _).andThen fun _ => perhaps ?_
  refine statements.bind (fun yes => ?_) later_loose fun _ _ => id
  refine takeIf_bind later_kind (KindTest.word .elseWord) ?_ ?_ (.inr fun _ _ => id)
  · have no : Carries (Token.later lines) k (fun _ => True) Loose True
        (Option.map (Stmt.moved lines k)) (some <$> statement) (some <$> statement') :=
      statements.map (fun _ => rfl) later_loose
    refine perhaps (no.bind (fun no => node fun i => ?_) later_loose fun _ _ => id)
    cases no <;> rfl
  · have leaf : Carries (Token.later lines) k (fun t => True ∧ t.isKeyword .elseWord = false) Loose
        False (Stmt.moved lines k) (Reader.node (.branch · condition yes none))
        (Reader.node (.branch · (condition.moved lines k) (yes.moved lines k) none)) :=
      node fun _ => rfl
    exact leaf

include statements in
theorem carries_whileLoop : CarriesStmt lines k (whileLoop statement) (whileLoop statement') := by
  intro first
  refine (expect later_kind _ _).andThen fun _ => perhaps ?_
  refine carries_expression.before (fun condition => ?_) later_tight
  refine (expect later_kind _ _).andThen fun _ => perhaps ?_
  exact statements.bind (fun body => node fun _ => rfl) later_loose fun _ _ => id

theorem carries_printStatement : CarriesStmt lines k printStatement printStatement := by
  intro first
  refine carries_expression.before (fun e => ?_) later_tight
  exact (expect later_kind _ _).andThen fun _ => node fun _ => rfl

theorem carries_returnStatement (keyword : Token) :
    CarriesStmt lines k (returnStatement keyword) (returnStatement (keyword.later lines)) := by
  intro first
  refine (carries_optional .semicolon).before (fun value => ?_) later_tight
  refine (expect later_kind _ _).andThen fun _ => node fun i => ?_
  cases value <;> rfl

include declarations statements in
theorem carries_statementOver :
    CarriesStmt lines k (statementOver declaration statement)
      (statementOver declaration' statement') := by
  intro first
  refine current_taking fun t _ => ?_
  obtain ⟨kind, lexeme, line⟩ := t
  dsimp only [Token.later]
  split
  · exact (take_of later_kind rfl).andThen fun _ => perhaps (carries_forLoop statements)
  · exact (take_of later_kind rfl).andThen fun _ => perhaps (carries_conditional statements)
  · exact (take_of later_kind rfl).andThen fun _ => perhaps carries_printStatement
  · exact (take_of later_kind rfl).andThen fun _ => perhaps (carries_returnStatement _)
  · exact (take_of later_kind rfl).andThen fun _ => perhaps (carries_whileLoop statements)
  · refine (take_of later_kind rfl).andThen fun _ => perhaps ?_
    refine (carries_block declarations).bind (fun body => node fun i => ?_) later_loose fun _ _ => id
    rw [← stmts_moved]
    rfl
  · exact carries_expressionStatement

include declarations statements in
theorem carries_declarationOver :
    CarriesStmt lines k (declarationOver declaration statement)
      (declarationOver declaration' statement') := by
  intro first
  refine current_taking fun t _ => ?_
  obtain ⟨kind, lexeme, line⟩ := t
  dsimp only [Token.later]
  split
  · exact (take_of later_kind rfl).andThen fun _ => perhaps (carries_classDeclaration declarations)
  · refine (take_of later_kind rfl).andThen fun _ => perhaps ?_
    exact (carries_function declarations .function).map (fun _ => rfl) later_loose
  · exact (take_of later_kind rfl).andThen fun _ => perhaps carries_varDeclaration
  · exact carries_statementOver declarations statements

end Nested

theorem carries_within {n m : Nat} (deeper : n ≤ m) :
    CarriesStmt lines k (fun c => declarationWithin n c) (fun c => declarationWithin m c) ∧
      CarriesStmt lines k (fun c => statementWithin n c) (fun c => statementWithin m c) := by
  induction n generalizing m with
  | zero =>
    constructor
    · intro first c a c' here read
      cases read
    · intro first c a c' here read
      cases read
  | succ n ih =>
    obtain ⟨m, rfl⟩ : ∃ less, m = less + 1 := ⟨m - 1, by omega⟩
    obtain ⟨declarations, statements⟩ := ih (Nat.le_of_succ_le_succ deeper)
    exact ⟨carries_declarationOver declarations statements,
      carries_statementOver declarations statements⟩

theorem carries_declaration : CarriesStmt lines k declaration declaration :=
  carries_limited fun deeper => (carries_within deeper).1

end Grammar

end LoxMachine
