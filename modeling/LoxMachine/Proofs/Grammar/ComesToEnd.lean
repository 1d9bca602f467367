import LoxMachine.Proofs.Grammar.Progress

namespace LoxMachine

open Reader

namespace Cursor

def Inside (tokens : List Token) (c : Cursor) : Prop := c.rest <:+ tokens ∧ c.rest ≠ []

/-- What may come of a reader that begins inside the list. It has come to a place inside the list,
over tokens of which none is for the end, and over at least one if it is said to take some; it fails
for a token that does not fit. -/
def Moves {α : Type} (tokens : List Token) (takes : Prop) (c : Cursor) :
    EStateM.Result SyntaxError Cursor α → Prop
  | .ok _ c' => c'.Inside tokens ∧
    ∃ taken, c.rest = taken ++ c'.rest ∧ Open taken ∧ (takes → taken ≠ [])
  | .error e c' => c'.Inside tokens ∧ (∃ taken, c.rest = taken ++ c'.rest ∧ Open taken) ∧
    ∃ expected found, e = .unexpected expected found

end Cursor

namespace Grammar

section Unlimited

variable {c : Cursor} {n : Nat}

/-- With a limit that is not below the number of tokens, an expression is read as if there were no
limits for those within it. -/
theorem expressionWithin_eq (closed : c.Closed) (enough : c.rest.length ≤ n) :
    expressionWithin n c = assignment expression c := by
  have some_left := closed.pos
  obtain ⟨n, rfl⟩ : ∃ less, n = less + 1 := ⟨n - 1, by omega⟩
  have inner : AdvancesPhrase [] n (fun c => expressionWithin n c) expression :=
    .limited (fun _ => n) (· + 1) (fun _ => id) Nat.le_succ fun enough enough' =>
      advances_expressionWithin enough enough'
  have whole : Advances [] (n + 1) Any True (expressionWithin (n + 1)) (assignment expression) :=
    advances_assignment inner
  exact (whole.agree closed enough True.intro).symm

theorem within_eq (closed : c.Closed) (enough : c.rest.length ≤ n) :
    declarationWithin n c = declarationOver declaration statement c ∧
      statementWithin n c = statementOver declaration statement c := by
  have some_left := closed.pos
  obtain ⟨n, rfl⟩ : ∃ less, n = less + 1 := ⟨n - 1, by omega⟩
  have declarations : AdvancesPhrase [] n (fun c => declarationWithin n c) declaration :=
    .limited (fun _ => n) (· + 1) (fun _ => id) Nat.le_succ fun enough enough' =>
      (advances_within enough enough').1
  have statements : AdvancesPhrase [] n (fun c => statementWithin n c) statement :=
    .limited (fun _ => n) (· + 1) (fun _ => id) Nat.le_succ fun enough enough' =>
      (advances_within enough enough').2
  have one : Advances [] (n + 1) Any True (declarationWithin (n + 1))
      (declarationOver declaration statement) := advances_declarationOver declarations statements
  have two : Advances [] (n + 1) Any True (statementWithin (n + 1))
      (statementOver declaration statement) := advances_statementOver declarations statements
  exact ⟨(one.agree closed enough True.intro).symm, (two.agree closed enough True.intro).symm⟩

theorem expression_eq (closed : c.Closed) : expression c = assignment expression c :=
  expressionWithin_eq closed (Nat.le_succ _)

/-- There is only one reader for expressions that has no limit. -/
theorem expression_unique {r : Reader Expr}
    (unlimited : ∀ c : Cursor, c.Closed → r c = assignment r c) (closed : c.Closed) :
    r c = expression c := by
  have advances : ∀ room, AdvancesPhrase [] room expression r := by
    intro room
    induction room with
    | zero => exact .none_room
    | succ room ih =>
      intro first takes
      have step : Advances [] (room + 1) first takes (assignment expression) (assignment r) :=
        advances_assignment ih
      exact step.congr (fun _ closed => expression_eq closed) unlimited
  have here : Advances [] c.rest.length Any True expression r := advances _
  exact here.agree closed (Nat.le_refl _) True.intro

/-- And only one for declarations and one for statements. -/
theorem statements_unique {d s : Reader Stmt}
    (declarations : ∀ c : Cursor, c.Closed → d c = declarationOver d s c)
    (statements : ∀ c : Cursor, c.Closed → s c = statementOver d s c) (closed : c.Closed) :
    d c = declaration c ∧ s c = statement c := by
  have advances : ∀ room,
      AdvancesPhrase [] room declaration d ∧ AdvancesPhrase [] room statement s := by
    intro room
    induction room with
    | zero => exact ⟨.none_room, .none_room⟩
    | succ room ih =>
      have one : ∀ {first : Token → Prop} {takes : Prop}, Advances [] (room + 1) first takes
          (declarationOver declaration statement) (declarationOver d s) :=
        advances_declarationOver ih.1 ih.2
      have two : ∀ {first : Token → Prop} {takes : Prop}, Advances [] (room + 1) first takes
          (statementOver declaration statement) (statementOver d s) :=
        advances_statementOver ih.1 ih.2
      exact ⟨one.congr (fun _ closed => (within_eq closed (Nat.le_succ _)).1) declarations,
        two.congr (fun _ closed => (within_eq closed (Nat.le_succ _)).2) statements⟩
  have one : Advances [] c.rest.length Any True declaration d := (advances _).1
  have two : Advances [] c.rest.length Any True statement s := (advances _).2
  exact ⟨one.agree closed (Nat.le_refl _) True.intro, two.agree closed (Nat.le_refl _) True.intro⟩

end Unlimited

/-- The rules of the grammar. -/
inductive Rule : {α : Type} → Reader α → Prop
  | expression : Rule expression
  | assignment : Rule (assignment expression)
  | operators (level : Nat) : Rule (operatorsFrom level (unary expression))
  | unary : Rule (unary expression)
  | chain : Rule (chain expression)
  | arguments (target : Expr) : Rule do
      let arguments ← separatedBefore .rightParen expression
      let paren ← expect .rightParen .afterArguments
      node (Expr.call · target paren arguments)
  | primary : Rule (primary expression)
  | declaration : Rule declaration
  | classDeclaration : Rule (classDeclaration declaration)
  | function (sort : FunctionSort) : Rule (function declaration sort)
  | varDeclaration : Rule varDeclaration
  | statement : Rule statement
  | block : Rule (block declaration)
  | forLoop : Rule (forLoop statement)
  | forInitializer : Rule forInitializer
  | conditional : Rule (conditional statement)
  | whileLoop : Rule (whileLoop statement)
  | printStatement : Rule printStatement
  | returnStatement (keyword : Token) : Rule (returnStatement keyword)
  | expressionStatement : Rule expressionStatement

def collecting {α : Type} (item : Reader α) (items : List α) : Reader (List α) :=
  return (← item) :: items

/-- The repetitions of the grammar. -/
inductive Repetition : {α : Type} → (Token → Bool) → (α → Reader α) → Prop
  | program : Repetition (!·.isEnding) (collecting declaration)
  | block : Repetition (fun t => !t.isSymbol .rightBrace && !t.isEnding) (collecting declaration)
  | methods : Repetition (fun t => !t.isSymbol .rightBrace && !t.isEnding)
      (collecting (function declaration .method))
  | parameters : Repetition (·.isSymbol .comma)
      (collecting do let _ ← take; expectName .parameter)
  | arguments : Repetition (·.isSymbol .comma) (collecting do let _ ← take; expression)
  | operators {tier : Tier} {level : Nat} (member : tiers[level]? = some tier) :
      Repetition tier.accepts (operation tier (operatorsFrom (level + 1) (unary expression)))
  | prefixes : Repetition isPrefixOperator (collecting take)
  | suffixes : Repetition (fun t => t.isSymbol .leftParen || t.isSymbol .dot) (suffix expression)

theorem advances_of_rule {α : Type} {r : Reader α} (rule : Rule r) {beyond : List Token}
    {room : Nat} : AdvancesPhrase beyond room r r := by
  intro first takes
  cases rule with
  | expression => exact advances_expression
  | assignment => exact (advances_assignment advances_expression).lower (Nat.le_succ room)
  | operators level =>
    exact advances_operatorsFrom level
      ((advances_unary advances_expression).lower (Nat.le_succ room))
  | unary => exact (advances_unary advances_expression).lower (Nat.le_succ room)
  | chain => exact (advances_chain advances_expression).lower (Nat.le_succ room)
  | arguments target => exact advances_arguments advances_expression target
  | primary => exact (advances_primary advances_expression).lower (Nat.le_succ room)
  | declaration => exact advances_declaration
  | classDeclaration => exact advances_classDeclaration advances_declaration
  | function sort => exact advances_function advances_declaration sort
  | varDeclaration => exact advances_varDeclaration
  | statement => exact advances_statement
  | block => exact advances_block advances_declaration
  | forLoop => exact advances_forLoop advances_statement
  | forInitializer => exact advances_forInitializer
  | conditional => exact advances_conditional advances_statement
  | whileLoop => exact advances_whileLoop advances_statement
  | printStatement => exact advances_printStatement
  | returnStatement keyword => exact advances_returnStatement keyword
  | expressionStatement => exact advances_expressionStatement

theorem advances_collecting {α : Type} {beyond : List Token} {room : Nat} {first : Token → Prop}
    {takes : Prop} {item : Reader α} (advances : Advances beyond room first takes item item)
    (items : List α) :
    Advances beyond room first takes (collecting item items) (collecting item items) :=
  advances.bind fun a => .pure (a :: items)

/-- Every step of a repetition takes a token. -/
theorem advances_of_repetition {α : Type} {test : Token → Bool} {step : α → Reader α}
    (repetition : Repetition test step) {beyond : List Token} {room : Nat} (a : α) :
    Advances beyond room (fun t => test t = true) True (step a) (step a) := by
  have comma : ∀ t : Token, t.isSymbol .comma = true → t.isEnding = false :=
    (KindTest.symbol .comma).goes
  cases repetition with
  | program => exact advances_collecting advances_declaration a
  | block => exact advances_collecting advances_declaration a
  | methods => exact advances_collecting (advances_function advances_declaration .method) a
  | parameters =>
    exact advances_collecting ((Advances.take.strengthen comma).bind fun _ => .expectName _) a
  | arguments =>
    exact advances_collecting ((Advances.take.strengthen comma).bind fun _ => advances_expression) a
  | @operators tier level member =>
    have kindly := tiers_kindly tier (List.mem_of_getElem? member)
    exact advances_operation kindly (advances_operatorsFrom (level + 1)
      ((advances_unary advances_expression).lower (Nat.le_succ room))) a
  | prefixes => exact advances_collecting (Advances.take.strengthen opens_prefix.goes) a
  | suffixes => exact (advances_suffix advances_expression a).lower (Nat.le_succ room)

variable {tokens : List Token} {ending : Token}

theorem closed_of_inside (ends : ending.isEnding = true) {c : Cursor}
    (inside : c.Inside (tokens ++ [ending])) : c.Closed := by
  rcases List.suffix_concat_iff.mp inside.1 with none_left | ⟨rest, split, _⟩
  · exact absurd none_left inside.2
  · refine ⟨ending, ?_, ends⟩
    rw [split]
    exact List.mem_concat_self

theorem inside_of_reaches (ends : ending.isEnding = true) {c c' : Cursor}
    (inside : c.Inside (tokens ++ [ending])) (reaches : c.Reaches c') :
    c'.Inside (tokens ++ [ending]) := by
  have some_left := (reaches.closed (closed_of_inside ends inside)).pos
  obtain ⟨taken, _, split⟩ := reaches
  have behind : c'.rest <:+ c.rest := split ▸ List.suffix_append taken c'.rest
  exact ⟨behind.trans inside.1, List.length_pos_iff.mp some_left⟩

theorem moves_of_yields (ends : ending.isEnding = true) {c : Cursor}
    (inside : c.Inside (tokens ++ [ending])) {α : Type} {takes : Prop}
    {result : EStateM.Result SyntaxError Cursor α} (yields : c.Yields takes result) :
    c.Moves (tokens ++ [ending]) takes result := by
  cases result with
  | ok a c' =>
    obtain ⟨reaches, shorter⟩ := yields
    have inside' := inside_of_reaches ends inside reaches
    obtain ⟨taken, open_taken, split⟩ := reaches
    refine ⟨inside', taken, split, open_taken, fun known none => ?_⟩
    have less := shorter known
    rw [split, none] at less
    exact absurd less (Nat.lt_irrefl _)
  | error e c' =>
    obtain ⟨reaches, deep⟩ := yields
    have inside' := inside_of_reaches ends inside reaches
    obtain ⟨taken, open_taken, split⟩ := reaches
    refine ⟨inside', ⟨taken, split, open_taken⟩, ?_⟩
    cases e with
    | unexpected expected found => exact ⟨expected, found, rfl⟩
    | nesting => exact absurd rfl deep

/-- Reading a list of tokens comes to an end, however malformed the list is. -/
structure ComesToEnd (tokens : List Token) : Prop where
  /-- Wherever in the list a rule begins, it stops inside the list. If it succeeds it has taken a
  token and none for the end. Whatever stands behind the list is never looked at. -/
  rules : ∀ {α : Type} {r : Reader α}, Rule r → ∀ c : Cursor, c.Inside tokens →
    c.Moves tokens True (r c) ∧ ∀ beyond, r (c.before beyond) = resultBefore beyond (r c)
  repetitions : ∀ {α : Type} {test : Token → Bool} {step : α → Reader α}, Repetition test step →
    ∀ (a : α) (c : Cursor), c.Inside tokens →
      Ends test step a c (repeatWhile test step a c) ∧
        c.Moves tokens False (repeatWhile test step a c)
  /-- A limit that is not below the number of tokens left is never reached: all that is nested is
  read as if there were none. -/
  unlimited : ∀ (c : Cursor) (n : Nat), c.Inside tokens → c.rest.length ≤ n →
    expressionWithin n c = assignment expression c ∧
      declarationWithin n c = declarationOver declaration statement c ∧
      statementWithin n c = statementOver declaration statement c
  unique : (∀ r : Reader Expr, (∀ c : Cursor, c.Closed → r c = assignment r c) →
      ∀ c : Cursor, c.Inside tokens → r c = expression c) ∧
    ∀ d s : Reader Stmt, (∀ c : Cursor, c.Closed → d c = declarationOver d s c) →
      (∀ c : Cursor, c.Closed → s c = statementOver d s c) →
      ∀ c : Cursor, c.Inside tokens → d c = declaration c ∧ s c = statement c
  programs : ∀ i : NodeId,
    (∃ body c taken, parse i tokens = (.ok body, c) ∧ c.Inside tokens ∧
      c.current.isEnding = true ∧ tokens = taken ++ c.rest ∧ Open taken) ∨
    ∃ expected found c, parse i tokens = (.error (.unexpected expected found), c) ∧ c.Inside tokens

theorem parse_comesToEnd (ends : ending.isEnding = true) (i : NodeId) :
    (∃ body c taken, parse i (tokens ++ [ending]) = (.ok body, c) ∧ c.Inside (tokens ++ [ending]) ∧
      c.current.isEnding = true ∧ tokens ++ [ending] = taken ++ c.rest ∧ Open taken) ∨
    ∃ expected found c, parse i (tokens ++ [ending]) = (.error (.unexpected expected found), c) ∧
      c.Inside (tokens ++ [ending]) := by
  have start : Cursor.Inside (tokens ++ [ending]) ⟨tokens ++ [ending], i⟩ :=
    ⟨List.suffix_refl _, List.concat_ne_nil _ _⟩
  have closed := closed_of_inside ends start
  have each : ∀ items, Advances [] (tokens ++ [ending]).length (fun t => (!t.isEnding) = true) True
      (collecting declaration items) (collecting declaration items) :=
    advances_of_repetition .program
  have stopped : Ends _ _ [] _ _ := ends_repeatWhile each closed (Nat.le_refl _)
  have loop : Advances [] (tokens ++ [ending]).length Any False
      (repeatWhile (!·.isEnding) (collecting declaration) [])
      (repeatWhile (!·.isEnding) (collecting declaration) []) := .repeatWhile each []
  have moves := moves_of_yields ends start (loop _ closed (Nat.le_refl _) True.intro).1
  have whole : program = (do
      let items ← repeatWhile (!·.isEnding) (collecting declaration) []
      return items.reverse) := rfl
  unfold parse
  rw [whole]
  cases read : repeatWhile (!·.isEnding) (collecting declaration) [] ⟨tokens ++ [ending], i⟩ with
  | ok items c =>
    rw [read] at moves stopped
    obtain ⟨inside, taken, split, open_taken, -⟩ := moves
    have ended : c.current.isEnding = true := by simpa using stopped.stopped rfl
    rw [bind_of_ok read]
    exact .inl ⟨_, c, taken, rfl, inside, ended, split, open_taken⟩
  | error e c =>
    rw [read] at moves
    obtain ⟨inside, -, expected, found, rfl⟩ := moves
    rw [bind_of_error read]
    exact .inr ⟨expected, found, c, rfl, inside⟩

theorem comesToEnd_of_ending (tokens : List Token) {ending : Token}
    (ends : ending.isEnding = true) : ComesToEnd (tokens ++ [ending]) where
  rules rule c inside := by
    have advances : ∀ beyond, Advances beyond c.rest.length Any True _ _ :=
      fun _ => advances_of_rule rule
    have closed := closed_of_inside ends inside
    refine ⟨moves_of_yields ends inside ?_, fun beyond => ?_⟩
    · exact (advances [] c closed (Nat.le_refl _) True.intro).1
    · exact (advances beyond c closed (Nat.le_refl _) True.intro).2
  repetitions repetition a c inside := by
    have closed := closed_of_inside ends inside
    have each : ∀ a, Advances [] c.rest.length _ True _ _ := advances_of_repetition repetition
    have loop : Advances [] c.rest.length Any False _ _ := .repeatWhile each a
    exact ⟨ends_repeatWhile each closed (Nat.le_refl _),
      moves_of_yields ends inside (loop c closed (Nat.le_refl _) True.intro).1⟩
  unlimited c n inside enough :=
    have closed := closed_of_inside ends inside
    ⟨expressionWithin_eq closed enough, within_eq closed enough⟩
  unique := by
    refine ⟨fun r unlimited c inside => ?_, fun d s declarations statements c inside => ?_⟩
    · exact expression_unique unlimited (closed_of_inside ends inside)
    · exact statements_unique declarations statements (closed_of_inside ends inside)
  programs := parse_comesToEnd ends

def brokenTokens : List Token :=
  [⟨.symbol .leftBrace, "\x7b", 1⟩, ⟨.symbol .leftParen, "(", 1⟩, .ending 1,
    ⟨.symbol .rightParen, ")", 2⟩]

theorem comesToEnd_of_broken : (Token.ending 3).isEnding = true ∧
    (parse 5 (brokenTokens ++ [.ending 3])).1 = .error (.unexpected .expression (.ending 1)) ∧
    ComesToEnd (brokenTokens ++ [.ending 3]) :=
  ⟨rfl, rfl, comesToEnd_of_ending brokenTokens rfl⟩

end Grammar

end LoxMachine
