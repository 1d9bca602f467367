import LoxMachine.Proofs.Grammar.Ahead
import LoxMachine.Proofs.Grammar.Moved
import LoxMachine.Proofs.Grammar.ReadsDeclaration
import LoxMachine.Proofs.Recode.Flat
import LoxMachine.Proofs.Recode.Kept

namespace LoxMachine

theorem Stmt.bare_moved (s : Stmt) (k : Nat) : (s.moved 0 k).bare = s.bare := by
  have still : s.moved 0 k = s.rename (· + k) := by
    change (s.renumber k).recode .still = _
    rw [Stmt.recode_still, Stmt.renumber_eq_rename]
  rw [still, Stmt.bare_rename]

namespace Grammar

open Reader

def statement : Reader Stmt := fun c => statementWithin (c.rest.length + 1) c

theorem ahead_of_spans {r r' : Reader Stmt} (carries : ∀ k, CarriesStmt 0 k r r')
    {tokens other : List Token} {s : Stmt} (spans : r.Spans tokens s) (some_left : other ≠ [])
    (next : NotElse (headOf other)) : Ahead r' tokens other fun s' => s'.bare = s.bare := by
  intro i
  obtain ⟨closing, ⟨rest, j⟩, last, read, ended⟩ := spans
  change rest = [closing] at ended
  subst ended
  obtain ⟨taken, split, _, _, elsewhere⟩ := @carries i Any _ _ _ True.intro read
  have same : taken = tokens := (List.append_cancel_right split).symm
  subst same
  have loose : Loose closing (headOf other) := by
    change closing.isKeyword .elseWord = (headOf other).isKeyword .elseWord
    rw [next, not_else_of_ending last]
  have again := elsewhere other (List.length_pos_iff.mpr some_left) loose
  have lines : taken.map (Token.later 0) = taken := List.map_id' taken
  rw [lines, Nat.zero_add] at again
  exact ⟨_, _, again, Stmt.bare_moved s i⟩

def Begins (k : Kind) : Prop := k = .keyword .forWord ∨ k.opens = true ∧ k.declares = false

theorem Begins.declares {k : Kind} (begins : Begins k) : k.declares = false := by
  rcases begins with rfl | ⟨_, plain⟩
  · rfl
  · exact plain

theorem Begins.inBody {t : Token} (begins : Begins t.kind) : inBody t = true := by
  rcases begins with word | ⟨opens, _⟩
  · obtain ⟨_, lexeme, line⟩ := t
    cases word
    rfl
  · exact inBody_of_opens opens

theorem Begins.notElse {t : Token} (begins : Begins t.kind) : NotElse t := by
  rcases begins with word | ⟨opens, _⟩
  · obtain ⟨_, lexeme, line⟩ := t
    cases word
    rfl
  · exact not_else_of_opens opens

theorem head_of_spells {tokens : List Token} {s : Stmt} (spells : Spells Token.Alike s.words tokens)
    (shaped : s.Shaped) :
    ∃ t rest, tokens = t :: rest ∧ t.kind.opens = true ∧ (s.Plain → t.kind.declares = false) := by
  obtain ⟨w, words, begins, opens, declares⟩ := s.words_head shaped
  rw [begins] at spells
  obtain ⟨t, rest, rfl, matched, _⟩ := spells.uncons
  rw [← matched.kind] at opens declares
  exact ⟨t, rest, rfl, opens, declares⟩

theorem begins_of_statement {declaration statement : Reader Stmt} {c c' : Cursor} {s : Stmt}
    (read : statementOver declaration statement c = .ok s c') : Begins c.current.kind := by
  -- whatever is no word of a statement is read as an expression, and then begins like one
  have leads : statementOver declaration statement c = expressionStatement c →
      Begins c.current.kind := by
    intro same
    rw [same] at read
    obtain ⟨taken, split, ⟨spells, shaped, plain⟩, _⟩ :=
      @takes_expressionStatement Any Any _ _ _ (fun _ _ => True.intro) True.intro read
    obtain ⟨t, rest, rfl, opens, declares⟩ := head_of_spells spells.alike shaped
    have current : c.current = t := congrArg headOf split
    rw [current]
    exact .inr ⟨opens, declares plain⟩
  unfold statementOver at leads
  rw [Carries.current_eq] at leads
  cases kind : c.current.kind with
  | keyword word =>
    rw [kind] at leads
    cases word with
    | forWord => exact .inl rfl
    | ifWord | printWord | returnWord | whileWord => exact .inr ⟨rfl, rfl⟩
    | _ => exact leads rfl
  | symbol sign =>
    rw [kind] at leads
    cases sign with
    | leftBrace => exact .inr ⟨rfl, rfl⟩
    | _ => exact leads rfl
  | identifier | string | number | endOfInput =>
    rw [kind] at leads
    exact leads rfl

theorem begins_of_spans {tokens : List Token} {s : Stmt} (spans : statement.Spans tokens s) :
    ∃ t rest, tokens = t :: rest ∧ Begins t.kind := by
  obtain ⟨closing, stop, last, read, ended⟩ := spans
  have begins : Begins (headOf (tokens ++ [closing])).kind := begins_of_statement read
  cases tokens with
  | nil =>
    have kind : closing.kind = .endOfInput := eq_of_beq last
    change Begins closing.kind at begins
    rw [kind] at begins
    rcases begins with word | ⟨opens, _⟩
    · cases word
    · cases opens
  | cons t rest => exact ⟨t, rest, rfl, begins⟩

theorem statement_ahead {tokens other : List Token} {s : Stmt} (spans : statement.Spans tokens s)
    (some_left : other ≠ []) (next : NotElse (headOf other)) {n : Nat}
    (deep : tokens.length + 2 ≤ n) :
    Ahead (fun c => statementWithin n c) tokens other fun s' => s'.bare = s.bare := by
  have limited : Spans (fun c => statementWithin (tokens.length + 2) c) tokens s := by
    obtain ⟨closing, stop, last, read, ended⟩ := spans
    refine ⟨closing, stop, last, ?_, ended⟩
    unfold Grammar.statement at read
    rw [List.length_append] at read
    exact read
  exact ahead_of_spans (fun k => (carries_within deep).2) limited some_left next

theorem declaration_ahead {tokens other : List Token} {n : Nat} {good : Stmt → Prop}
    (begins : ∃ t rest, tokens = t :: rest ∧ Begins t.kind)
    (ahead : Ahead (fun c => statementWithin (n + 1) c) tokens other good) :
    Ahead (fun c => declarationWithin (n + 1) c) tokens other good := by
  obtain ⟨t, rest, rfl, begins⟩ := begins
  intro i
  have plain : (Cursor.current ⟨t :: rest ++ other, i⟩).kind.declares = false := begins.declares
  obtain ⟨s, j, read, built⟩ := ahead i
  exact ⟨s, j, (declarationOver_eq plain).trans read, built⟩

/-- The first clause of a loop: a semicolon alone, a variable declaration or an expression
statement. -/
inductive FirstClause : List Token → Option Stmt → Prop
  | empty {t : Token} (semicolon : t.kind = .symbol .semicolon) : FirstClause [t] none
  | declares {t : Token} {tokens : List Token} {s : Stmt} (word : t.kind = .keyword .varWord)
    (spans : varDeclaration.Spans tokens s) : FirstClause (t :: tokens) (some s)
  | evaluates {tokens : List Token} {s : Stmt} (spans : expressionStatement.Spans tokens s) :
    FirstClause tokens (some s)

/-- Another clause: empty or an expression. -/
inductive Clause : List Token → Option Expr → Prop
  | empty : Clause [] none
  | filled {tokens : List Token} {e : Expr} (spans : expression.Spans tokens e) :
    Clause tokens (some e)

section Clauses

variable {tokens other : List Token}

theorem Clause.spelled {e : Option Expr} (clause : Clause tokens e) :
    Spells Token.Alike (valueWords e) tokens ∧ OptionalShaped e := by
  cases clause with
  | empty => exact ⟨.nil, True.intro⟩
  | filled spans =>
    obtain ⟨spells, shaped, _⟩ := spans.built takes_expression
    exact ⟨spells.alike, shaped⟩

theorem Clause.ahead {e : Option Expr} (clause : Clause tokens e) {closing : Symbol}
    (closes : closing = .rightParen ∨ closing = .semicolon)
    (next : (headOf other).kind = .symbol closing) :
    Ahead (optionalBefore closing expression) tokens other
      fun e' => e'.map Expr.bare = e.map Expr.bare :=
  (reads_optionalBefore closes clause.spelled.2 clause.spelled.1).ahead next

theorem FirstClause.spelled {s : Stmt} (clause : FirstClause tokens (some s)) :
    Spells Token.Alike s.words tokens ∧ s.Shaped := by
  cases clause with
  | declares word spans =>
    obtain ⟨spells, shaped⟩ := spans.built (takes_varDeclaration word)
    exact ⟨spells.alike, shaped⟩
  | evaluates spans =>
    obtain ⟨spells, shaped, _⟩ := spans.built takes_expressionStatement
    exact ⟨spells.alike, shaped⟩

theorem begins_of_expressionStatement {s : Stmt} (spans : expressionStatement.Spans tokens s) :
    ∃ t rest, tokens = t :: rest ∧ t.kind.opens = true ∧ t.kind.declares = false := by
  obtain ⟨spells, shaped, plain⟩ := spans.built takes_expressionStatement
  obtain ⟨t, rest, rfl, opens, declares⟩ := head_of_spells spells.alike shaped
  exact ⟨t, rest, rfl, opens, declares plain⟩

theorem FirstClause.begins {s : Stmt} (clause : FirstClause tokens (some s)) :
    ∃ t rest, tokens = t :: rest ∧ t.kind.opens = true := by
  obtain ⟨t, rest, first, opens, _⟩ := head_of_spells clause.spelled.1 clause.spelled.2
  exact ⟨t, rest, first, opens⟩

theorem FirstClause.ahead {s : Option Stmt} (clause : FirstClause tokens s) (some_left : other ≠ [])
    (next : NotElse (headOf other)) :
    Ahead forInitializer tokens other fun s' => s'.map Stmt.bare = s.map Stmt.bare := by
  cases clause with
  | @empty t semicolon =>
    exact Ahead.takeIf_yes (KindTest.symbol .semicolon) (Token.is_symbol semicolon) (.pure rfl)
  | @declares t tokens s word spans =>
    have no_symbol : t.isSymbol .semicolon = false := by
      unfold Token.isSymbol
      rw [word]
      rfl
    refine Ahead.takeIf_no no_symbol ?_
    refine Ahead.takeIf_yes (KindTest.word .varWord) (beq_iff_eq.mpr word) (.map ?_)
    refine (ahead_of_spans (fun k => carries_varDeclaration) spans some_left next).mono ?_
    exact fun s' same => congrArg some same
  | @evaluates tokens s spans =>
    obtain ⟨t, rest, rfl, opens, plain⟩ := begins_of_expressionStatement spans
    have no_symbol : t.isSymbol .semicolon = false := by
      refine beq_false_of_ne fun semicolon => ?_
      rw [semicolon] at opens
      cases opens
    have no_word : t.isKeyword .varWord = false := by
      refine beq_false_of_ne fun word => ?_
      rw [word] at plain
      cases plain
    refine Ahead.takeIf_no no_symbol (Ahead.takeIf_no no_word (.map ?_))
    refine (ahead_of_spans (fun k => carries_expressionStatement) spans some_left next).mono ?_
    exact fun s' same => congrArg some same

theorem Clause.begins {e : Expr} (clause : Clause tokens (some e)) :
    ∃ t rest, tokens = t :: rest ∧ t.kind.opens = true := by
  obtain ⟨spells, shaped⟩ := clause.spelled
  obtain ⟨w, words, begins, leads, _⟩ := e.words_head shaped
  have alike : Spells Token.Alike e.words tokens := spells
  rw [begins] at alike
  obtain ⟨t, rest, rfl, matched, _⟩ := alike.uncons
  rw [← matched.kind] at leads
  exact ⟨t, rest, rfl, Kind.opens_of_leads leads⟩

theorem Clause.notElse {e : Option Expr} (clause : Clause tokens e) {t : Token} {rest : List Token}
    (last : NotElse t) : NotElse (headOf (tokens ++ t :: rest)) := by
  cases e with
  | none =>
    cases clause
    exact last
  | some e =>
    obtain ⟨u, others, rfl, opens⟩ := clause.begins
    exact not_else_of_opens opens

end Clauses

def bodyTree : Option Expr → Stmt → Stmt
  | none, s => s
  | some e, s => .block 0 [s, .expression 0 e]

def whileTree (condition increment : Option Expr) (s : Stmt) : Stmt :=
  .loop 0 (condition.getD (.literal 0 (.bool true))) (bodyTree increment s)

def loopTree : Option Stmt → Option Expr → Option Expr → Stmt → Stmt
  | none, condition, increment, s => whileTree condition increment s
  | some first, condition, increment, s => .block 0 [first, whileTree condition increment s]

section Trees

variable {first first' : Option Stmt} {condition condition' increment increment' : Option Expr}
  {s s' : Stmt} {other : List Token}

theorem forLoopOf_ahead (firsts : first'.map Stmt.bare = first.map Stmt.bare)
    (conditions : condition'.map Expr.bare = condition.map Expr.bare)
    (increments : increment'.map Expr.bare = increment.map Expr.bare) (bodies : s'.bare = s.bare) :
    Ahead (forLoopOf first' condition' increment' s') [] other
      fun tree => tree.bare = (loopTree first condition increment s).bare := by
  have loops : ∀ e' : Expr, e'.bare = (condition.getD (.literal 0 (.bool true))).bare →
      ∀ b' : Stmt, b'.bare = (bodyTree increment s).bare →
      Ahead (forLoopOf first' (some e') none b') [] other
        fun tree => tree.bare = (loopTree first condition increment s).bare := by
    intro e' tested b' body i
    have loop : (Stmt.loop i e' b').bare = (whileTree condition increment s).bare := by
      change Stmt.loop 0 e'.bare b'.bare = Stmt.loop 0 _ (bodyTree increment s).bare
      rw [tested, body]
    cases first' with
    | none =>
      cases first with
      | none => exact ⟨_, i + 1, rfl, loop⟩
      | some => cases firsts
    | some f' =>
      cases first with
      | none => cases firsts
      | some f =>
        refine ⟨_, i + 2, rfl, ?_⟩
        change Stmt.block 0 [f'.bare, (Stmt.loop i e' b').bare] = Stmt.block 0 [f.bare, _]
        rw [loop, Option.some.inj firsts]
  have conditioned : ∀ b' : Stmt, b'.bare = (bodyTree increment s).bare →
      Ahead (forLoopOf first' condition' none b') [] other
        fun tree => tree.bare = (loopTree first condition increment s).bare := by
    intro b' body
    cases condition' with
    | none =>
      cases condition with
      | none => exact fun i => loops (.literal i (.bool true)) rfl b' body (i + 1)
      | some => cases conditions
    | some e' =>
      cases condition with
      | none => cases conditions
      | some e => exact loops e' (Option.some.inj conditions) b' body
  cases increment' with
  | none =>
    cases increment with
    | none => exact conditioned s' bodies
    | some => cases increments
  | some e' =>
    cases increment with
    | none => cases increments
    | some e =>
      refine .node_bind fun i => .node_bind fun j => conditioned _ ?_
      change Stmt.block 0 [s'.bare, .expression 0 e'.bare] = Stmt.block 0 [s.bare, .expression 0 e.bare]
      rw [bodies, Option.some.inj increments]

end Trees

def keptWords (tokens : List Token) : List Word := tokens.map .kept

theorem eq_of_kept {front tokens : List Token} (spells : Spells Eq (keptWords front) tokens) :
    tokens = front := by
  induction front generalizing tokens with
  | nil =>
    cases spells
    rfl
  | cons t rest ih =>
    obtain ⟨u, others, rfl, same, spells⟩ := spells.uncons
    rw [ih spells, show t = u from same]

theorem split_kept {front tokens : List Token} {words : List Word}
    (spells : Spells Eq (keptWords front ++ words) tokens) :
    ∃ rest, tokens = front ++ rest ∧ Spells Eq words rest := by
  obtain ⟨left, rest, rfl, kept, later⟩ := spells.split
  exact ⟨rest, congrArg (· ++ rest) (eq_of_kept kept), later⟩

/-- A loop: `for`, and in parentheses the clauses with a semicolon behind the second one, and the
body. -/
def loopWords (initializer condition increment body : List Token) : List Word :=
  .plain (.keyword .forWord) :: .plain (.symbol .leftParen) :: (keptWords initializer ++
    (keptWords condition ++ .plain (.symbol .semicolon) ::
      (keptWords increment ++ .plain (.symbol .rightParen) :: keptWords body)))

def conditionWords (condition : List Token) : List Word :=
  if condition = [] then [.plain (.keyword .trueWord)] else keptWords condition

def bodyWords (increment body : List Token) : List Word :=
  if increment = [] then keptWords body
  else .plain (.symbol .leftBrace) :: (keptWords body ++
    (keptWords increment ++ [.plain (.symbol .semicolon), .plain (.symbol .rightBrace)]))

def whileWords (condition increment body : List Token) : List Word :=
  .plain (.keyword .whileWord) :: .plain (.symbol .leftParen) ::
    (conditionWords condition ++ .plain (.symbol .rightParen) :: bodyWords increment body)

/-- What one would write by hand for the loop: `while`, and with it in braces the first clause if
that is not a semicolon alone. -/
def expansionWords (initializer condition increment body : List Token) : List Word :=
  if initializer.map (·.kind) = [.symbol .semicolon] then whileWords condition increment body
  else .plain (.symbol .leftBrace) :: (keptWords initializer ++
    (whileWords condition increment body ++ [.plain (.symbol .rightBrace)]))

section Texts

variable {initializer condition increment body tokens other : List Token} {first : Option Stmt}
  {c e : Option Expr} {s : Stmt} {n : Nat}

theorem word_ahead {t : Token} {k : Kind} {r : Reader Stmt} {good : Stmt → Prop} (kind : t.kind = k)
    (inside : (k == .endOfInput) = false) (rest : Ahead r tokens other good) :
    Ahead (do let _ ← take; r) (t :: tokens) other good :=
  Ahead.first (Reads.take (Token.open_of_kind kind inside)) rest

theorem loop_ahead (initial : FirstClause initializer first) (tested : Clause condition c)
    (step : Clause increment e) (looped : statement.Spans body s)
    (spells : Spells Eq (loopWords initializer condition increment body) tokens)
    (some_left : other ≠ []) (next : NotElse (headOf other)) (deep : tokens.length ≤ n) :
    Ahead (fun c => statementWithin (n + 1) c) tokens other
      fun tree => tree.bare = (loopTree first c e s).bare := by
  obtain ⟨word, _, rfl, kind, header⟩ := spells.uncons
  obtain ⟨opening, _, rfl, left, clauses⟩ := header.uncons
  obtain ⟨_, rfl, later⟩ := split_kept clauses
  obtain ⟨_, rfl, last⟩ := split_kept later
  obtain ⟨semicolon, _, rfl, middle, increments⟩ := last.uncons
  obtain ⟨_, rfl, ended⟩ := split_kept increments
  obtain ⟨closing, _, rfl, right, kept⟩ := ended.uncons
  cases eq_of_kept kept
  have kind : word.kind = .keyword .forWord := kind
  have no_else : NotElse semicolon := by
    unfold NotElse Token.isKeyword
    rw [show semicolon.kind = .symbol .semicolon from middle]
    rfl
  have statement : Ahead (statementOver (fun c => declarationWithin n c) (fun c => statementWithin n c))
      (word :: opening :: (initializer ++ (condition ++ semicolon :: (increment ++ closing :: body))))
      other fun tree => tree.bare = (loopTree first c e s).bare := by
    refine Ahead.current_bind ?_
    rw [kind]
    refine word_ahead kind rfl (.expect left ?_)
    refine (initial.ahead ?_ ?_).bind fun first' firsts => ?_
    · simp
    · rw [List.append_assoc]
      exact tested.notElse no_else
    refine .bind (tested.ahead (.inr rfl) ?_) fun c' conditions => .expect middle ?_
    · exact middle
    refine .bind (step.ahead (.inl rfl) ?_) fun e' increments => .expect right ?_
    · exact right
    simp only [List.length_cons, List.length_append] at deep
    refine (statement_ahead looped some_left next (by omega)).andThen fun s' bodies => ?_
    exact forLoopOf_ahead firsts conditions increments bodies
  exact statement

theorem block_ahead {front back : List Token} {one two : Stmt} {opening closing : Token}
    (left : opening.kind = .symbol .leftBrace) (right : closing.kind = .symbol .rightBrace)
    (begins : ∃ t rest, front = t :: rest ∧ inBody t = true)
    (begins' : ∃ t rest, back = t :: rest ∧ inBody t = true)
    (reads : Ahead (fun c => declarationWithin n c) front (back ++ closing :: other)
      fun s => s.bare = one.bare)
    (reads' : Ahead (fun c => declarationWithin n c) back (closing :: other)
      fun s => s.bare = two.bare) :
    Ahead (fun c => statementWithin (n + 1) c) (opening :: (front ++ (back ++ [closing]))) other
      fun s => s.bare = (Stmt.block 0 [one, two]).bare := by
  have stops : inBody (headOf (closing :: other)) = false := (stops_of_brace closing right).1
  have items : Ahead (Reader.many inBody fun c => declarationWithin n c) (front ++ back)
      (closing :: other) fun body => stmtsBare body = [one.bare, two.bare] := by
    have last := Items.cons reads' begins' (.nil stops)
    rw [List.append_nil] at last
    refine (Items.cons reads begins last).many.mono ?_
    rintro _ ⟨a, _, rfl, first, b, _, rfl, second, rfl⟩
    change [a.bare, b.bare] = [one.bare, two.bare]
    rw [first, second]
  have braced : Ahead (block fun c => declarationWithin n c) (front ++ back ++ [closing]) other
      fun body => stmtsBare body = [one.bare, two.bare] :=
    Ahead.bind items fun body same => .expect right (.pure same)
  rw [List.append_assoc] at braced
  have statement : Ahead (statementOver (fun c => declarationWithin n c) (fun c => statementWithin n c))
      (opening :: (front ++ (back ++ [closing]))) other
      fun s => s.bare = (Stmt.block 0 [one, two]).bare := by
    refine Ahead.current_bind ?_
    rw [left]
    refine word_ahead left rfl (braced.andThen fun body same => .node fun i => ?_)
    exact congrArg (Stmt.block 0) same
  exact statement

theorem step_ahead {e : Expr} {semicolon : Token} (clause : Clause tokens (some e))
    (ends : semicolon.kind = .symbol .semicolon) (deep : tokens.length + 2 ≤ n) :
    Ahead (fun c => declarationWithin n c) (tokens ++ [semicolon]) other
      fun s => s.bare = (Stmt.expression 0 e).bare := by
  obtain ⟨spells, shaped⟩ := clause.spelled
  have words : Spells Token.Alike (Stmt.expression 0 e).words (tokens ++ [semicolon]) :=
    Spells.append spells (.plain ends .nil)
  have short : (Stmt.expression 0 e).words.length < n := by
    rw [words.length_eq, List.length_append, List.length_singleton]
    omega
  exact ((covers_within n).1 (.expression 0 e) shaped short _ words).ahead False.elim

theorem body_ahead (step : Clause increment e) (looped : statement.Spans body s)
    (spells : Spells Eq (bodyWords increment body) tokens) (some_left : other ≠ [])
    (next : NotElse (headOf other)) (deep : tokens.length + 2 ≤ n) :
    Ahead (fun c => statementWithin n c) tokens other
      fun s' => s'.bare = (bodyTree e s).bare := by
  cases step with
  | empty =>
    rw [bodyWords, if_pos rfl] at spells
    cases eq_of_kept spells
    exact statement_ahead looped some_left next deep
  | @filled _ e spans =>
    have clause := Clause.filled spans
    obtain ⟨t, rest, first, opens⟩ := clause.begins
    rw [bodyWords, if_neg (by rw [first]; exact List.cons_ne_nil t rest)] at spells
    obtain ⟨opening, _, rfl, left, inner⟩ := spells.uncons
    obtain ⟨_, rfl, later⟩ := split_kept inner
    obtain ⟨_, rfl, ending⟩ := split_kept later
    obtain ⟨semicolon, _, rfl, ends, last⟩ := ending.uncons
    obtain ⟨closing, _, rfl, right, none⟩ := last.uncons
    cases none
    obtain ⟨u, others, head, begins⟩ := begins_of_spans looped
    simp only [List.length_cons, List.length_append, List.length_nil] at deep
    obtain ⟨n, rfl⟩ : ∃ less, n = less + 2 := ⟨n - 2, by omega⟩
    have starts : ∃ t rest, increment ++ [semicolon] = t :: rest ∧ inBody t = true :=
      ⟨t, rest ++ [semicolon], by rw [first]; rfl, inBody_of_opens opens⟩
    have behind : NotElse (headOf (increment ++ [semicolon] ++ closing :: other)) := by
      rw [first]
      exact not_else_of_opens opens
    have statements := statement_ahead (n := n + 1) looped (List.append_ne_nil_of_left_ne_nil
      (List.append_ne_nil_of_right_ne_nil _ (List.cons_ne_nil semicolon [])) (closing :: other))
      behind (by omega)
    have block := block_ahead left right ⟨u, others, head, begins.inBody⟩ starts
      (declaration_ahead ⟨u, others, head, begins⟩ statements) (step_ahead clause ends (by omega))
    rw [List.append_assoc] at block
    exact block

theorem condition_spelled {condition : List Token} (tested : Clause condition c)
    (spells : Spells Eq (conditionWords condition) tokens) :
    Spells Token.Alike (c.getD (.literal 0 (.bool true))).words tokens ∧
      (c.getD (.literal 0 (.bool true))).Shaped := by
  cases tested with
  | empty =>
    rw [conditionWords, if_pos rfl] at spells
    exact ⟨spells.alike, True.intro⟩
  | @filled _ e spans =>
    have clause := Clause.filled spans
    obtain ⟨t, rest, first, _⟩ := clause.begins
    rw [conditionWords, if_neg (by rw [first]; exact List.cons_ne_nil t rest)] at spells
    cases eq_of_kept spells
    exact clause.spelled

theorem while_ahead (tested : Clause condition c) (step : Clause increment e)
    (looped : statement.Spans body s)
    (spells : Spells Eq (whileWords condition increment body) tokens) (some_left : other ≠ [])
    (next : NotElse (headOf other)) (deep : tokens.length ≤ n) :
    Ahead (fun c => statementWithin (n + 1) c) tokens other
      fun s' => s'.bare = (whileTree c e s).bare := by
  obtain ⟨word, _, rfl, kind, header⟩ := spells.uncons
  obtain ⟨opening, _, rfl, left, parts⟩ := header.uncons
  obtain ⟨front, _, rfl, conditions, ended⟩ := parts.split
  obtain ⟨closing, back, rfl, right, bodies⟩ := ended.uncons
  have kind : word.kind = .keyword .whileWord := kind
  obtain ⟨spelled, shaped⟩ := condition_spelled tested conditions
  have statement : Ahead (statementOver (fun c => declarationWithin n c) (fun c => statementWithin n c))
      (word :: opening :: (front ++ closing :: back)) other
      fun s' => s'.bare = (whileTree c e s).bare := by
    refine Ahead.current_bind ?_
    rw [kind]
    refine word_ahead kind rfl (.expect left ?_)
    refine .bind ((reads_expression shaped front spelled).ahead ?_) fun c' same => .expect right ?_
    · exact stops_of_closing right (.inr (.inl rfl))
    simp only [List.length_cons, List.length_append] at deep
    refine (body_ahead step looped bodies some_left next (by omega)).andThen fun s' same' => ?_
    refine .node fun i => ?_
    change Stmt.loop 0 c'.bare s'.bare = Stmt.loop 0 _ _
    rw [same, same']
  exact statement

theorem expansion_ahead (initial : FirstClause initializer first) (tested : Clause condition c)
    (step : Clause increment e) (looped : statement.Spans body s)
    (spells : Spells Eq (expansionWords initializer condition increment body) tokens)
    (some_left : other ≠ []) (next : NotElse (headOf other)) (deep : tokens.length ≤ n) :
    Ahead (fun c => statementWithin (n + 1) c) tokens other
      fun tree => tree.bare = (loopTree first c e s).bare := by
  cases first with
  | none =>
    cases initial with
    | @empty t semicolon =>
      have alone : [t].map (·.kind) = [.symbol .semicolon] := congrArg (· :: []) semicolon
      rw [expansionWords, if_pos alone] at spells
      exact while_ahead tested step looped spells some_left next deep
  | some start =>
    obtain ⟨t, rest, head, opens⟩ := initial.begins
    have written : initializer.map (·.kind) ≠ [.symbol .semicolon] := by
      intro alone
      rw [head] at alone
      have semicolon : t.kind = .symbol .semicolon := (List.cons.inj alone).1
      rw [semicolon] at opens
      cases opens
    rw [expansionWords, if_neg written] at spells
    obtain ⟨opening, _, rfl, left, inner⟩ := spells.uncons
    obtain ⟨_, rfl, later⟩ := split_kept inner
    obtain ⟨loop, _, rfl, loops, last⟩ := later.split
    obtain ⟨closing, _, rfl, right, none⟩ := last.uncons
    cases none
    simp only [List.length_cons, List.length_append, List.length_nil] at deep
    obtain ⟨n, rfl⟩ : ∃ less, n = less + 1 := ⟨n - 1, by omega⟩
    obtain ⟨words, shaped⟩ := initial.spelled
    have short : start.words.length < n + 1 := by
      rw [words.length_eq]
      omega
    have starts : ∃ t rest, initializer = t :: rest ∧ inBody t = true :=
      ⟨t, rest, head, inBody_of_opens opens⟩
    have whiles : Ahead (fun c => statementWithin (n + 1) c) loop (closing :: other)
        fun tree => tree.bare = (whileTree c e s).bare :=
      while_ahead tested step looped loops (List.cons_ne_nil _ _) (stops_of_brace closing right).2
        (by omega)
    obtain ⟨word, others, rfl, kind, _⟩ := loops.uncons
    have begins : Begins word.kind := by
      rw [show word.kind = .keyword .whileWord from kind]
      exact .inr ⟨rfl, rfl⟩
    refine block_ahead left right starts ⟨word, others, rfl, begins.inBody⟩ ?_
      (declaration_ahead ⟨word, others, rfl, begins⟩ whiles)
    exact ((covers_within (n + 1)).1 start shaped short _ words).ahead fun _ => begins.notElse

theorem parse_of_ahead {closing : Token} {good : Stmt → Prop} (last : closing.isEnding = true)
    (begins : ∃ t rest, tokens = t :: rest ∧ t.isEnding = false)
    (reads : Ahead (fun c => declarationWithin (tokens.length + 2) c) tokens [closing] good) (i : NodeId) :
    ∃ s stop, parse i (tokens ++ [closing]) = (.ok [s], stop) ∧ stop.rest = [closing] ∧ good s := by
  have stops : (!(headOf [closing]).isEnding) = false := by
    rw [show (headOf [closing]).isEnding = true from last]
    rfl
  have one : Ahead declaration tokens ([] ++ [closing]) good := by
    intro j
    obtain ⟨s, k, read, built⟩ := reads j
    refine ⟨s, k, ?_, built⟩
    change declarationWithin ((tokens ++ [closing]).length + 1) _ = _
    rw [List.length_append]
    exact read
  obtain ⟨t, rest, rfl, inside⟩ := begins
  have goes : ∃ u others, t :: rest = u :: others ∧ (!u.isEnding) = true :=
    ⟨t, rest, rfl, by rw [inside]; rfl⟩
  obtain ⟨_, k, read, s, _, rfl, built, rfl⟩ := (Items.cons one goes (.nil stops)).many i
  rw [List.append_nil] at read
  exact ⟨s, ⟨[closing], k⟩, parse_eq_ok.mpr (program_eq_ok.mp read), rfl, built⟩

theorem parse_of_loop (initial : FirstClause initializer first) (tested : Clause condition c)
    (step : Clause increment e) (looped : statement.Spans body s)
    (spells : Spells Eq (loopWords initializer condition increment body) tokens) {closing : Token}
    (last : closing.isEnding = true) (i : NodeId) :
    ∃ tree stop, parse i (tokens ++ [closing]) = (.ok [tree], stop) ∧ stop.rest = [closing] ∧
      tree.bare = (loopTree first c e s).bare := by
  have reads := loop_ahead initial tested step looped spells (List.cons_ne_nil closing [])
    (not_else_of_ending last) (Nat.le_succ _)
  obtain ⟨t, rest, rfl, word, _⟩ := spells.uncons
  have kind : t.kind = .keyword .forWord := word
  have begins : Begins t.kind := .inl kind
  exact parse_of_ahead last ⟨t, rest, rfl, Token.open_of_kind kind rfl⟩
    (declaration_ahead ⟨t, rest, rfl, begins⟩ reads) i

theorem parse_of_expansion (initial : FirstClause initializer first) (tested : Clause condition c)
    (step : Clause increment e) (looped : statement.Spans body s)
    (spells : Spells Eq (expansionWords initializer condition increment body) tokens)
    {closing : Token} (last : closing.isEnding = true) (i : NodeId) :
    ∃ tree stop, parse i (tokens ++ [closing]) = (.ok [tree], stop) ∧ stop.rest = [closing] ∧
      tree.bare = (loopTree first c e s).bare := by
  have reads := expansion_ahead initial tested step looped spells (List.cons_ne_nil closing [])
    (not_else_of_ending last) (Nat.le_succ _)
  have begins : ∃ t rest, tokens = t :: rest ∧
      (t.kind = .keyword .whileWord ∨ t.kind = .symbol .leftBrace) := by
    unfold expansionWords at spells
    split at spells
    · obtain ⟨t, rest, rfl, word, _⟩ := spells.uncons
      exact ⟨t, rest, rfl, .inl word⟩
    · obtain ⟨t, rest, rfl, brace, _⟩ := spells.uncons
      exact ⟨t, rest, rfl, .inr brace⟩
  obtain ⟨t, rest, rfl, kind⟩ := begins
  have starts : Begins t.kind ∧ t.isEnding = false := by
    rcases kind with word | brace
    · exact ⟨word ▸ .inr ⟨rfl, rfl⟩, Token.open_of_kind word rfl⟩
    · exact ⟨brace ▸ .inr ⟨rfl, rfl⟩, Token.open_of_kind brace rfl⟩
  exact parse_of_ahead last ⟨t, rest, rfl, starts.2⟩
    (declaration_ahead ⟨t, rest, rfl, starts.1⟩ reads) i

end Texts

end Grammar

end LoxMachine
