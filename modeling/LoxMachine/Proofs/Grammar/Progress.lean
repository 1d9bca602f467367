import LoxMachine.Proofs.Grammar.Advances
import LoxMachine.Proofs.Grammar.Loops

namespace LoxMachine

namespace Grammar

open Reader

variable {beyond : List Token} {room : Nat}

def AdvancesPhrase {α : Type} (beyond : List Token) (room : Nat) (r r' : Reader α) : Prop :=
  ∀ {first : Token → Prop} {takes : Prop}, Advances beyond room first takes r r'

theorem advances_leaf {α : Type} {t : Token} {takes : Prop} (open_here : t.isEnding = false)
    (build : NodeId → α) :
    Advances beyond room (fun u => u = t) takes (do let _ ← take; node build)
      (do let _ ← take; node build) :=
  (Advances.take_of open_here).bind fun _ => .node build

theorem advances_closed {α : Type} (s : Symbol) (place : Place) (build : NodeId → α) :
    AdvancesPhrase beyond room (do let _ ← expect s place; node build)
      (do let _ ← expect s place; node build) :=
  (Advances.expect s place).bind fun _ => .node build

section Expressions

variable {nested nested' : Reader Expr} (inner : AdvancesPhrase beyond room nested nested')

include inner in
theorem advances_arguments (target : Expr) :
    AdvancesPhrase beyond room
      (do
        let arguments ← separatedBefore .rightParen nested
        let paren ← expect .rightParen .afterArguments
        node (Expr.call · target paren arguments))
      (do
        let arguments ← separatedBefore .rightParen nested'
        let paren ← expect .rightParen .afterArguments
        node (Expr.call · target paren arguments)) :=
  (Advances.separatedBefore inner .rightParen).andThen fun _ =>
    (Advances.expect _ _).bind fun _ => .node _

theorem opens_suffix : KindTest fun t => t.isSymbol .leftParen || t.isSymbol .dot :=
  .ofKind (fun kind => kind == .symbol .leftParen || kind == .symbol .dot) rfl

include inner in
theorem advances_suffix {takes : Prop} (target : Expr) :
    Advances beyond (room + 1) (fun t => (t.isSymbol .leftParen || t.isSymbol .dot) = true) takes
      (suffix nested target) (suffix nested' target) := by
  refine (Advances.take.strengthen opens_suffix.goes).after fun opening => ?_
  split
  · exact advances_arguments inner target
  · exact (Advances.expectName _).bind fun name => .node _

include inner in
theorem advances_primary : AdvancesPhrase beyond (room + 1) (primary nested) (primary nested') := by
  intro first takes
  refine Advances.current_bind fun t _ => ?_
  obtain ⟨kind, lexeme, line⟩ := t
  dsimp only
  split
  · exact advances_leaf rfl _
  · exact advances_leaf rfl _
  · exact advances_leaf rfl _
  · exact advances_leaf rfl _
  · exact advances_leaf rfl _
  · refine (Advances.take_of rfl).bind fun _ => ?_
    exact (Advances.expect _ _).bind fun _ => (Advances.expectName _).bind fun method => .node _
  · exact advances_leaf rfl _
  · exact advances_leaf rfl _
  · refine (Advances.take_of rfl).after fun _ => ?_
    exact inner.bind fun inside => advances_closed _ _ _
  · exact .unexpected

include inner in
theorem advances_chain : AdvancesPhrase beyond (room + 1) (chain nested) (chain nested') :=
  (advances_primary inner).bind fun target =>
    .repeatWhile (fun target => advances_suffix inner target) target

theorem opens_prefix : KindTest isPrefixOperator :=
  .ofKind (fun kind => kind == .symbol .bang || kind == .symbol .minus) rfl

theorem advances_prefixes (operators : List Token) (e : Expr) :
    Advances beyond room (fun _ => True) False
      (operators.foldlM (fun right operator => node (.unary · operator right)) e)
      (operators.foldlM (fun right operator => node (.unary · operator right)) e) := by
  induction operators generalizing e with
  | nil => exact .pure e
  | cons operator rest ih =>
    rw [List.foldlM_cons]
    exact (Advances.node _).bind ih

include inner in
theorem advances_unary : AdvancesPhrase beyond (room + 1) (unary nested) (unary nested') := by
  intro first takes
  have operators : Advances beyond (room + 1) first False (many isPrefixOperator take)
      (many isPrefixOperator take) := .many (Advances.take.strengthen opens_prefix.goes)
  exact operators.andThen fun before =>
    (advances_chain inner).bind fun operand => advances_prefixes before.reverse operand

def operation (tier : Tier) (operand : Reader Expr) (left : Expr) : Reader Expr := do
  let operator ← take
  let right ← operand
  node (tier.build · left operator right)

theorem advances_operation {tier : Tier} (accepts : KindTest tier.accepts) {takes : Prop}
    {operand operand' : Reader Expr} (each : AdvancesPhrase beyond room operand operand')
    (left : Expr) :
    Advances beyond room (fun t => tier.accepts t = true) takes (operation tier operand left)
      (operation tier operand' left) :=
  (Advances.take.strengthen accepts.goes).bind fun _ => each.bind fun _ => .node _

theorem advances_leftToRight {tier : Tier} (accepts : KindTest tier.accepts)
    {operand operand' : Reader Expr} (each : AdvancesPhrase beyond room operand operand') :
    AdvancesPhrase beyond room (leftToRight tier operand) (leftToRight tier operand') :=
  each.bind fun left => .repeatWhile (fun left => advances_operation accepts each left) left

def operatorsFrom (level : Nat) (operand : Reader Expr) : Reader Expr :=
  (tiers.drop level).foldr leftToRight operand

theorem advances_operatorsFrom (level : Nat) {operand operand' : Reader Expr}
    (each : AdvancesPhrase beyond room operand operand') :
    AdvancesPhrase beyond room (operatorsFrom level operand) (operatorsFrom level operand') := by
  have kindly : ∀ tier ∈ tiers.drop level, KindTest tier.accepts :=
    fun tier member => tiers_kindly tier (List.mem_of_mem_drop member)
  intro first takes
  unfold operatorsFrom
  generalize tiers.drop level = remaining at kindly
  induction remaining generalizing first takes with
  | nil => exact each
  | cons tier rest ih =>
    rw [List.forall_mem_cons] at kindly
    exact advances_leftToRight kindly.1 (ih kindly.2)

include inner in
theorem advances_assignment :
    AdvancesPhrase beyond (room + 1) (assignment nested) (assignment nested') := by
  refine (advances_operatorsFrom 0 (advances_unary inner)).bind fun target => ?_
  refine Advances.current_bind fun t _ => ?_
  split
  · rename_i equals
    have open_here := (KindTest.symbol .equal).goes t equals
    refine (Advances.take_of open_here).after fun _ => inner.bind fun value => ?_
    split
    · exact .node _
    · exact .node _
    · exact .unexpected
  · exact .pure target

end Expressions

theorem advances_expressionWithin {n m : Nat} (enough : room ≤ n) (enough' : room ≤ m) :
    AdvancesPhrase beyond room (fun c => expressionWithin n c) (fun c => expressionWithin m c) := by
  induction room generalizing n m with
  | zero => exact .none_room
  | succ room ih =>
    obtain ⟨n, rfl⟩ : ∃ less, n = less + 1 := ⟨n - 1, by omega⟩
    obtain ⟨m, rfl⟩ : ∃ less, m = less + 1 := ⟨m - 1, by omega⟩
    exact advances_assignment (ih (Nat.le_of_succ_le_succ enough) (Nat.le_of_succ_le_succ enough'))

theorem advances_expression : AdvancesPhrase beyond room expression expression :=
  .limited (· + 1) (· + 1) (fun _ _ => Nat.le_succ _) Nat.le_succ fun enough enough' =>
    advances_expressionWithin enough enough'

theorem advances_expressionStatement :
    AdvancesPhrase beyond room expressionStatement expressionStatement :=
  advances_expression.bind fun _ => advances_closed _ _ _

theorem advances_printStatement : AdvancesPhrase beyond room printStatement printStatement :=
  advances_expression.bind fun _ => advances_closed _ _ _

theorem advances_returnStatement (keyword : Token) :
    AdvancesPhrase beyond room (returnStatement keyword) (returnStatement keyword) :=
  (Advances.optionalBefore advances_expression .semicolon).andThen fun _ => advances_closed _ _ _

theorem advances_varDeclaration : AdvancesPhrase beyond room varDeclaration varDeclaration := by
  refine (Advances.expectName _).bind fun name => ?_
  refine Advances.takeIf_bind (KindTest.symbol .equal) ?_ (advances_closed _ _ _)
  exact advances_expression.map.bind fun _ => advances_closed _ _ _

section Nested

variable {declaration declaration' statement statement' : Reader Stmt}
  (declarations : AdvancesPhrase beyond room declaration declaration')
  (statements : AdvancesPhrase beyond room statement statement')

include declarations in
theorem advances_block : AdvancesPhrase beyond room (block declaration) (block declaration') :=
  (Advances.many declarations).andThen fun body => (Advances.expect _ _).bind fun _ => .pure body

include declarations in
theorem advances_function (sort : FunctionSort) :
    AdvancesPhrase beyond room (function declaration sort) (function declaration' sort) := by
  refine (Advances.expectName _).bind fun _ => (Advances.expect _ _).bind fun _ => ?_
  refine (Advances.separatedBefore (Advances.expectName .parameter) .rightParen).bind fun _ => ?_
  refine (Advances.expect _ _).bind fun _ => (Advances.expect _ _).bind fun _ => ?_
  exact (advances_block declarations).bind fun _ => .node _

include declarations in
theorem advances_classDeclaration :
    AdvancesPhrase beyond room (classDeclaration declaration) (classDeclaration declaration') := by
  have body : ∀ name superclass, AdvancesPhrase beyond room
      (do
        let _ ← expect .leftBrace .beforeClassBody
        let methods ← many (fun t => !t.isSymbol .rightBrace && !t.isEnding)
          (function declaration .method)
        let _ ← expect .rightBrace .afterClassBody
        node (Stmt.classDecl · name superclass methods))
      (do
        let _ ← expect .leftBrace .beforeClassBody
        let methods ← many (fun t => !t.isSymbol .rightBrace && !t.isEnding)
          (function declaration' .method)
        let _ ← expect .rightBrace .afterClassBody
        node (Stmt.classDecl · name superclass methods)) := fun name superclass =>
    (Advances.expect _ _).bind fun _ =>
      (Advances.many (advances_function declarations .method)).bind fun _ => advances_closed _ _ _
  intro first takes
  refine (Advances.expectName _).bind fun name => ?_
  refine Advances.takeIf_bind (KindTest.symbol .less) ?_ (body name none)
  refine (Advances.expectName _).bind fun superName => ?_
  exact (Advances.node _).map.bind fun superclass => body name superclass

theorem advances_forInitializer : AdvancesPhrase beyond room forInitializer forInitializer :=
  Advances.takeIf_bind (KindTest.symbol .semicolon) (.pure none)
    (Advances.takeIf_bind (KindTest.word .varWord) advances_varDeclaration.map
      advances_expressionStatement.map)

theorem advances_forLoopOf (initializer : Option Stmt) (condition increment : Option Expr)
    (body : Stmt) :
    Advances beyond room (fun _ => True) False (forLoopOf initializer condition increment body)
      (forLoopOf initializer condition increment body) := by
  intro c _ _ _
  cases initializer <;> cases condition <;> cases increment <;>
    exact ⟨⟨.refl _, False.elim⟩, rfl⟩

include statements in
theorem advances_forLoop : AdvancesPhrase beyond room (forLoop statement) (forLoop statement') := by
  refine (Advances.expect _ _).bind fun _ => advances_forInitializer.bind fun _ => ?_
  refine (Advances.optionalBefore advances_expression .semicolon).bind fun _ => ?_
  refine (Advances.expect _ _).bind fun _ => ?_
  refine (Advances.optionalBefore advances_expression .rightParen).bind fun _ => ?_
  refine (Advances.expect _ _).bind fun _ => statements.bind fun body => ?_
  exact advances_forLoopOf _ _ _ body

include statements in
theorem advances_conditional :
    AdvancesPhrase beyond room (conditional statement) (conditional statement') := by
  refine (Advances.expect _ _).bind fun _ => advances_expression.bind fun condition => ?_
  refine (Advances.expect _ _).bind fun _ => statements.bind fun yes => ?_
  have skipped : Advances beyond room (fun _ => True) False
      (node (Stmt.branch · condition yes none)) (node (Stmt.branch · condition yes none)) := .node _
  refine Advances.takeIf_bind (KindTest.word .elseWord) ?_ skipped
  exact statements.map.bind fun _ => .node _

include statements in
theorem advances_whileLoop :
    AdvancesPhrase beyond room (whileLoop statement) (whileLoop statement') := by
  refine (Advances.expect _ _).bind fun _ => advances_expression.bind fun _ => ?_
  exact (Advances.expect _ _).bind fun _ => statements.bind fun _ => .node _

theorem advances_behind {α : Type} {t : Token} {takes : Prop} (open_here : t.isEnding = false)
    {r r' : Reader α} (rest : AdvancesPhrase beyond room r r') :
    Advances beyond (room + 1) (fun u => u = t) takes (do let _ ← take; r)
      (do let _ ← take; r') :=
  (Advances.take_of open_here).after fun _ => rest

include declarations statements in
theorem advances_statementOver :
    AdvancesPhrase beyond (room + 1) (statementOver declaration statement)
      (statementOver declaration' statement') := by
  intro first takes
  refine Advances.current_bind fun t _ => ?_
  obtain ⟨kind, lexeme, line⟩ := t
  dsimp only
  split
  · exact advances_behind rfl (advances_forLoop statements)
  · exact advances_behind rfl (advances_conditional statements)
  · exact advances_behind rfl advances_printStatement
  · exact advances_behind rfl (advances_returnStatement _)
  · exact advances_behind rfl (advances_whileLoop statements)
  · exact advances_behind rfl ((advances_block declarations).bind fun _ => .node _)
  · exact advances_expressionStatement

include declarations statements in
theorem advances_declarationOver :
    AdvancesPhrase beyond (room + 1) (declarationOver declaration statement)
      (declarationOver declaration' statement') := by
  intro first takes
  refine Advances.current_bind fun t _ => ?_
  obtain ⟨kind, lexeme, line⟩ := t
  dsimp only
  split
  · exact advances_behind rfl (advances_classDeclaration declarations)
  · exact advances_behind rfl (advances_function declarations .function).map
  · exact advances_behind rfl advances_varDeclaration
  · exact advances_statementOver declarations statements

end Nested

theorem advances_within {n m : Nat} (enough : room ≤ n) (enough' : room ≤ m) :
    AdvancesPhrase beyond room (fun c => declarationWithin n c) (fun c => declarationWithin m c) ∧
      AdvancesPhrase beyond room (fun c => statementWithin n c)
        (fun c => statementWithin m c) := by
  induction room generalizing n m with
  | zero => exact ⟨.none_room, .none_room⟩
  | succ room ih =>
    obtain ⟨n, rfl⟩ : ∃ less, n = less + 1 := ⟨n - 1, by omega⟩
    obtain ⟨m, rfl⟩ : ∃ less, m = less + 1 := ⟨m - 1, by omega⟩
    obtain ⟨declarations, statements⟩ :=
      ih (Nat.le_of_succ_le_succ enough) (Nat.le_of_succ_le_succ enough')
    exact ⟨advances_declarationOver declarations statements,
      advances_statementOver declarations statements⟩

theorem advances_declaration : AdvancesPhrase beyond room declaration declaration :=
  .limited (· + 1) (· + 1) (fun _ _ => Nat.le_succ _) Nat.le_succ fun enough enough' =>
    (advances_within enough enough').1

theorem advances_statement : AdvancesPhrase beyond room statement statement :=
  .limited (· + 1) (· + 1) (fun _ _ => Nat.le_succ _) Nat.le_succ fun enough enough' =>
    (advances_within enough enough').2

end Grammar

end LoxMachine
