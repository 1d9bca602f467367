import LoxMachine.Proofs.Grammar.Spelled
import LoxMachine.Proofs.Grammar.Reads

namespace LoxMachine

def Kind.starts : Kind → Bool
  | .keyword .falseWord | .keyword .trueWord | .keyword .nilWord | .keyword .superWord
  | .keyword .thisWord | .number _ | .string _ | .identifier | .symbol .leftParen => true
  | _ => false

def Kind.leads (k : Kind) : Bool := k.starts || k == .symbol .bang || k == .symbol .minus

theorem begins_append {w : Word} {words rest : List Word} (begins : words = w :: rest)
    (more : List Word) : words ++ more = w :: (rest ++ more) := by
  rw [begins, List.cons_append]

theorem Operands.level_le {least most : Nat} {left right : Expr} {operator : Token}
    (operands : Operands least most left operator right) :
    (precedence operator.kind).getD 0 ≤ most := by
  obtain ⟨p, tight, _, below, _, _⟩ := operands
  rw [tight]
  exact below

/-- The first word of an expression. -/
theorem Expr.words_head : ∀ e : Expr, e.Shaped →
    ∃ w rest, e.words = w :: rest ∧ w.kind.leads = true ∧ (8 ≤ e.level → w.kind.starts = true)
  | .literal _ value, _ => by
    refine ⟨_, _, rfl, ?_⟩
    cases value with
    | bool b => cases b <;> exact ⟨rfl, fun _ => rfl⟩
    | nil | number | string => exact ⟨rfl, fun _ => rfl⟩
  | .read use, shaped => by
    have kind : use.name.kind = .identifier := shaped
    refine ⟨.kept use.name, _, rfl, ?_⟩
    rw [Word.kind, kind]
    exact ⟨rfl, fun _ => rfl⟩
  | .assign _ name value, shaped => by
    have kind : name.kind = .identifier := shaped.1
    refine ⟨.kept name, _, rfl, ?_⟩
    rw [Word.kind, kind]
    exact ⟨rfl, fun _ => rfl⟩
  | .unary _ operator right, shaped => by
    refine ⟨.kept operator, _, rfl, ?_, fun tight => absurd tight (by simp [Expr.level])⟩
    rw [Word.kind]
    rcases shaped.1 with kind | kind
    · rw [kind]
      rfl
    · rw [kind]
      rfl
  | .binary _ left operator right, shaped => by
    obtain ⟨w, rest, words, leads, _⟩ := left.words_head shaped.2.1
    refine ⟨w, _, begins_append words _, leads, fun tight => ?_⟩
    have loose := shaped.1.level_le
    exact absurd (Nat.le_trans tight loose) (by decide)
  | .logical _ left operator right, shaped => by
    obtain ⟨w, rest, words, leads, _⟩ := left.words_head shaped.2.1
    refine ⟨w, _, begins_append words _, leads, fun tight => ?_⟩
    have loose := shaped.1.level_le
    exact absurd (Nat.le_trans tight loose) (by decide)
  | .grouping _ inner, shaped => ⟨_, _, rfl, rfl, fun _ => rfl⟩
  | .call _ callee paren arguments, shaped => by
    obtain ⟨w, rest, words, leads, starts⟩ := callee.words_head shaped.2.1
    exact ⟨w, _, begins_append words _, leads, fun _ => starts shaped.1⟩
  | .get _ object name, shaped => by
    obtain ⟨w, rest, words, leads, starts⟩ := object.words_head shaped.2.1
    exact ⟨w, _, begins_append words _, leads, fun _ => starts shaped.1⟩
  | .set _ object name value, shaped => by
    obtain ⟨w, rest, words, leads, starts⟩ := object.words_head shaped.2.1
    exact ⟨w, _, begins_append words _, leads, fun _ => starts shaped.1⟩
  | .this _ keyword, shaped => by
    have kind : keyword.kind = .keyword .thisWord := shaped
    refine ⟨.kept keyword, _, rfl, ?_⟩
    rw [Word.kind, kind]
    exact ⟨rfl, fun _ => rfl⟩
  | .super _ keyword method, shaped => by
    have kind : keyword.kind = .keyword .superWord := shaped.1
    refine ⟨.kept keyword, _, rfl, ?_⟩
    rw [Word.kind, kind]
    exact ⟨rfl, fun _ => rfl⟩

structure Stops (level : Nat) (t : Token) : Prop where
  operator : ∀ p, precedence t.kind = some p → p < level
  suffix : level ≤ 8 → t.isSymbol .leftParen = false ∧ t.isSymbol .dot = false
  equal : level = 0 → t.isSymbol .equal = false

theorem Stops.mono {level higher : Nat} {t : Token} (stops : Stops level t) (below : level ≤ higher) :
    Stops higher t where
  operator p tight := Nat.lt_of_lt_of_le (stops.operator p tight) below
  suffix low := stops.suffix (Nat.le_trans below low)
  equal zero := stops.equal (Nat.le_zero.mp (zero ▸ below))

theorem stops_of_closing {level : Nat} {t : Token} {s : Symbol} (kind : t.kind = .symbol s)
    (closes : s = .comma ∨ s = .rightParen ∨ s = .semicolon) : Stops level t := by
  obtain ⟨_, lexeme, line⟩ := t
  cases kind
  rcases closes with rfl | rfl | rfl
  all_goals exact ⟨fun p tight => (by cases tight), fun _ => ⟨rfl, rfl⟩, fun _ => rfl⟩

theorem stops_of_operator {level p : Nat} {t : Token} (tight : precedence t.kind = some p)
    (looser : p < level) : Stops level t where
  operator q same := by
    cases same.symm.trans tight
    exact looser
  suffix _ := by
    obtain ⟨kind, lexeme, line⟩ := t
    constructor
    · refine beq_false_of_ne fun same => ?_
      rw [same] at tight
      cases tight
    · refine beq_false_of_ne fun same => ?_
      rw [same] at tight
      cases tight
  equal zero := absurd (zero ▸ looser) (Nat.not_lt_zero p)

namespace Grammar

open Reader Reads

def ReadBack (r : Reader Expr) (may : Token → Prop) (e : Expr) : Prop :=
  ∀ tokens, Spells Token.Alike e.words tokens → Reads r tokens may fun e' => e'.bare = e.bare

def Covers (r : Reader Expr) (level bound : Nat) : Prop :=
  ∀ e : Expr, e.At level → e.words.length < bound → ReadBack r (Stops level) e

section Expressions

variable {nested : Reader Expr} {bound : Nat} (inner : Covers nested 0 bound)

theorem reads_literal {t : Token} {value : Literal} (kind : t.kind = value.kind) :
    Reads (primary nested) [t] Any fun e => e.bare = .literal 0 value := by
  have taking : ∀ {k : Kind}, t.kind = k → (k == .endOfInput) = false → Reads take [t] Any (· = t) :=
    fun same inside => Reads.take (Token.open_of_kind same inside)
  refine current_bind ?_
  cases value with
  | nil | number | string =>
    rw [kind]
    exact first (taking kind rfl) (Reads.node fun _ => rfl)
  | bool b =>
    cases b with
    | true | false =>
      rw [kind]
      exact first (taking kind rfl) (Reads.node fun _ => rfl)

include inner in
theorem reads_primary {e : Expr} (fits : e.At 9) (short : e.words.length < bound + 1) :
    ReadBack (primary nested) Any e := by
  intro tokens spells
  have taking : ∀ {t : Token} {k : Kind}, t.kind = k → (k == .endOfInput) = false →
      Reads take [t] Any (· = t) :=
    fun same inside => Reads.take (Token.open_of_kind same inside)
  obtain ⟨shaped, level⟩ := fits
  cases e with
  | literal id value =>
    cases spells with
    | cons kind none =>
      cases none
      exact reads_literal kind
  | read use =>
    obtain ⟨t, _, rfl, alike, none⟩ := spells.uncons
    cases none
    have kind : t.kind = .identifier := alike.kind.trans shaped
    refine current_bind ?_
    rw [kind]
    refine first (taking kind rfl) (Reads.node fun i => ?_)
    exact congrArg (fun name => Expr.read ⟨0, name⟩) alike
  | grouping id part =>
    obtain ⟨opening, _, rfl, left, spells⟩ := spells.uncons
    obtain ⟨middle, _, rfl, within, ends⟩ := spells.split
    obtain ⟨closing, _, rfl, right, none⟩ := ends.uncons
    cases none
    have kind : opening.kind = .symbol .leftParen := left
    have fewer : part.words.length < bound := by
      rw [Expr.words, List.length_cons, List.length_append] at short
      omega
    refine current_bind ?_
    rw [kind]
    refine first (taking kind rfl) ?_
    refine (inner part ⟨shaped, Nat.zero_le _⟩ fewer middle within).upTo
      (stops_of_closing right (.inr (.inl rfl))) fun e' same => ?_
    refine first (Reads.expect right) (Reads.node fun i => ?_)
    exact congrArg (Expr.grouping 0) same
  | this id keyword =>
    obtain ⟨t, _, rfl, alike, none⟩ := spells.uncons
    cases none
    have kind : t.kind = .keyword .thisWord := alike.kind.trans shaped
    refine current_bind ?_
    rw [kind]
    refine first (taking kind rfl) (Reads.node fun i => ?_)
    exact congrArg (Expr.this 0) alike
  | super id keyword method =>
    obtain ⟨t, _, rfl, alike, spells⟩ := spells.uncons
    obtain ⟨dot, _, rfl, symbol, spells⟩ := spells.uncons
    obtain ⟨name, _, rfl, alike', none⟩ := spells.uncons
    cases none
    have kind : t.kind = .keyword .superWord := alike.kind.trans shaped.1
    refine current_bind ?_
    rw [kind]
    refine first (taking kind rfl) (first (Reads.expect symbol) ?_)
    refine first (Reads.expectName (alike'.kind.trans shaped.2)) (Reads.node fun i => ?_)
    change Expr.super 0 t.bare name.bare = Expr.super 0 keyword.bare method.bare
    rw [show t.bare = keyword.bare from alike, show name.bare = method.bare from alike']
  | binary id left operator right | logical id left operator right =>
    exact absurd (Nat.le_trans level shaped.1.level_le) (by decide)
  | assign | set | unary | call | get => exact absurd level (by simp [Expr.level])

include inner in
theorem reads_call {id : NodeId} {callee target : Expr} {paren : Token} {arguments : List Expr}
    (shaped : ∀ e ∈ arguments, e.Shaped) (right : paren.kind = .symbol .rightParen)
    (short : ∀ e ∈ arguments, e.words.length < bound) (same : target.bare = callee.bare)
    {opening closing : Token} {tokens : List Token} (left : opening.kind = .symbol .leftParen)
    (spells : Spells Token.Alike (listed (exprsWords arguments)) tokens) (alike : paren.Alike closing) :
    Reads (suffix nested target) (opening :: (tokens ++ [closing])) Any
      fun e => e.bare = (Expr.call id callee paren arguments).bare := by
  have taken := Token.is_symbol left
  have kind : closing.kind = .symbol .rightParen := alike.kind.trans right
  refine first (Reads.take ((KindTest.symbol _).goes opening taken)) ?_
  rw [if_pos taken]
  rw [exprsWords_eq] at spells
  have items : Reads (Reader.separatedBefore .rightParen nested) tokens
      (·.kind = .symbol .rightParen) fun es => es.map Expr.bare = arguments.map Expr.bare := by
    refine Reads.separatedBefore (by decide) (fun e member tokens spells => ?_)
      (fun e member tokens spells => ?_) spells
    · refine (inner e ⟨shaped e member, Nat.zero_le _⟩ (short e member) tokens spells).strengthen ?_
      rintro t (comma | paren)
      · exact stops_of_closing comma (.inl rfl)
      · exact stops_of_closing paren (.inr (.inl rfl))
    · obtain ⟨w, rest, words, leads, _⟩ := e.words_head (shaped e member)
      rw [words] at spells
      obtain ⟨t, others, rfl, matched, _⟩ := spells.uncons
      refine ⟨t, others, rfl, beq_false_of_ne fun paren => ?_⟩
      rw [← matched.kind, paren] at leads
      cases leads
  refine items.upTo kind fun es alikes => ?_
  refine first (Reads.expect kind) (Reads.node fun i => ?_)
  change Expr.call 0 target.bare closing.bare (exprsBare es) =
    Expr.call 0 callee.bare paren.bare (exprsBare arguments)
  rw [same, show closing.bare = paren.bare from alike, exprsBare_eq, exprsBare_eq, alikes]

theorem reads_get {id : NodeId} {object target : Expr} {name property dot : Token}
    (kind : name.kind = .identifier) (same : target.bare = object.bare)
    (symbol : dot.kind = .symbol .dot) (alike : name.Alike property) :
    Reads (suffix nested target) [dot, property] Any
      fun e => e.bare = (Expr.get id object name).bare := by
  have taken := Token.is_symbol symbol
  refine first (Reads.take ((KindTest.symbol _).goes dot taken)) ?_
  rw [if_neg (Bool.eq_false_iff.mp (Token.not_symbol symbol (by decide)))]
  refine first (Reads.expectName (alike.kind.trans kind)) (Reads.node fun i => ?_)
  change Expr.get 0 target.bare property.bare = Expr.get 0 object.bare name.bare
  rw [same, show property.bare = name.bare from alike]

def isSuffix (t : Token) : Bool := t.isSymbol .leftParen || t.isSymbol .dot

include inner in
theorem leads_chain : ∀ e : Expr, e.At 8 → e.words.length < bound + 1 →
    ∀ tokens, Spells Token.Alike e.words tokens →
      Leads (chain nested) (repeatUpTo isSuffix (suffix nested)) tokens Any fun e' => e'.bare = e.bare
  | .call id callee paren arguments, fits, short, tokens, spells => by
    obtain ⟨⟨level, shaped, right, fine⟩, _⟩ := fits
    rw [Expr.words, List.length_append, List.length_cons, List.length_append] at short
    obtain ⟨front, _, rfl, here, spells⟩ := spells.split
    obtain ⟨opening, _, rfl, left, spells⟩ := spells.uncons
    obtain ⟨middle, _, rfl, within, ends⟩ := spells.split
    obtain ⟨closing, _, rfl, alike, none⟩ := ends.uncons
    cases none
    have before := leads_chain callee ⟨shaped, level⟩ (by omega) front here
    have tested : isSuffix opening = true := Bool.or_eq_true_iff.mpr (.inl (Token.is_symbol left))
    refine before.turn tested True.intro fun target same => ?_
    refine reads_call inner (exprsShaped_iff.mp fine) right (fun e member => ?_) same left within alike
    have listing := (sublist_listed (List.mem_map_of_mem (f := Expr.words) member)).length_le
    rw [← exprsWords_eq] at listing
    omega
  | .get id object name, fits, short, tokens, spells => by
    obtain ⟨⟨level, shaped, kind⟩, _⟩ := fits
    rw [Expr.words, List.length_append] at short
    obtain ⟨front, _, rfl, here, spells⟩ := spells.split
    obtain ⟨dot, _, rfl, symbol, spells⟩ := spells.uncons
    obtain ⟨property, _, rfl, alike, none⟩ := spells.uncons
    cases none
    have before := leads_chain object ⟨shaped, level⟩ (by omega) front here
    have tested : isSuffix dot = true := Bool.or_eq_true_iff.mpr (.inr (Token.is_symbol symbol))
    exact before.turn tested True.intro fun target same => reads_get kind same symbol alike
  | .literal _ _, fits, short, tokens, spells | .read _, fits, short, tokens, spells
  | .grouping _ _, fits, short, tokens, spells | .this _ _, fits, short, tokens, spells
  | .super _ _ _, fits, short, tokens, spells =>
    Leads.start (reads_primary inner ⟨fits.1, Nat.le_refl 9⟩ short tokens spells)
  | .binary _ _ _ _, fits, _, _, _ | .logical _ _ _ _, fits, _, _, _ =>
    absurd (Nat.le_trans fits.2 fits.1.1.level_le) (by decide)
  | .assign _ _ _, fits, _, _, _ | .set _ _ _ _, fits, _, _, _ | .unary _ _ _, fits, _, _, _ =>
    absurd fits.2 (by simp [Expr.level])

include inner in
theorem covers_chain : Covers (chain nested) 8 (bound + 1) := by
  intro e fits short tokens spells
  refine (leads_chain inner e fits short tokens spells).stop fun t stops => ?_
  obtain ⟨paren, dot⟩ := stops.suffix (Nat.le_refl 8)
  refine ⟨?_, True.intro⟩
  unfold isSuffix
  rw [paren, dot]
  rfl

/-- The tokens of an expression are prefix operators and those of a chain, around which the
operators are put. -/
structure Prefixed (e : Expr) (tokens operators rest : List Token) (core : Expr) : Prop where
  split : tokens = operators ++ rest
  fine : ∀ t ∈ operators, isPrefixOperator t = true
  tight : core.At 8
  shorter : core.words.length ≤ e.words.length
  here : Spells Token.Alike core.words rest
  wraps : ∀ operand may, operand.bare = core.bare →
    Reads (operators.reverse.foldlM
      (fun right operator => node (Expr.unary · operator right)) operand) [] may
      fun e' => e'.bare = e.bare

theorem Prefixed.none {e : Expr} {tokens : List Token} (fits : e.At 8)
    (spells : Spells Token.Alike e.words tokens) : Prefixed e tokens [] tokens e :=
  ⟨rfl, fun t none => (by cases none), fits, Nat.le_refl _, spells, fun _ _ same => Reads.pure same⟩

theorem prefixed : ∀ e : Expr, e.At 7 → ∀ tokens, Spells Token.Alike e.words tokens →
    ∃ operators rest core, Prefixed e tokens operators rest core
  | .unary _ operator right, fits, tokens, spells => by
    obtain ⟨symbol, level, shaped⟩ := fits.1
    obtain ⟨t, tokens, rfl, alike, spells⟩ := spells.uncons
    obtain ⟨operators, rest, core, rfl, fine, tight, short, here, wraps⟩ :=
      prefixed right ⟨shaped, level⟩ tokens spells
    have tested : isPrefixOperator t = true := by
      rw [← Token.Alike.kind alike] at symbol
      rcases symbol with bang | minus
      · exact Bool.or_eq_true_iff.mpr (.inl (Token.is_symbol bang))
      · exact Bool.or_eq_true_iff.mpr (.inr (Token.is_symbol minus))
    refine ⟨t :: operators, rest, core, rfl, List.forall_mem_cons.mpr ⟨tested, fine⟩, tight,
      Nat.le_succ_of_le short, here, fun operand may same => ?_⟩
    rw [List.reverse_cons, List.foldlM_append]
    refine (wraps operand may same).andThen (fun _ => id) fun e' same' => ?_
    refine Reads.andThen (Reads.node fun i => ?_) (fun _ => id) fun e'' done => Reads.pure done
    change Expr.unary 0 t.bare e'.bare = Expr.unary 0 operator.bare right.bare
    rw [same', show t.bare = operator.bare from alike]
  | .call _ _ _ _, fits, tokens, spells | .get _ _ _, fits, tokens, spells =>
    ⟨[], tokens, _, .none ⟨fits.1, Nat.le_refl 8⟩ spells⟩
  | .literal _ _, fits, tokens, spells | .read _, fits, tokens, spells
  | .grouping _ _, fits, tokens, spells | .this _ _, fits, tokens, spells
  | .super _ _ _, fits, tokens, spells =>
    ⟨[], tokens, _, .none ⟨fits.1, Nat.le_succ 8⟩ spells⟩
  | .binary _ _ _ _, fits, _, _ | .logical _ _ _ _, fits, _, _ =>
    absurd (Nat.le_trans fits.2 fits.1.1.level_le) (by decide)
  | .assign _ _ _, fits, _, _ | .set _ _ _ _, fits, _, _ =>
    absurd fits.2 (by simp [Expr.level])

include inner in
theorem covers_unary : Covers (unary nested) 7 (bound + 1) := by
  intro e fits short tokens spells
  obtain ⟨operators, rest, core, rfl, fine, tight, shorter, here, wraps⟩ :=
    prefixed e fits tokens spells
  -- behind the operators begins a smallest expression
  obtain ⟨w, words, begins, _, starts⟩ := core.words_head tight.1
  have head : ∃ t others, rest = t :: others ∧ isPrefixOperator t = false := by
    have spelled := here
    rw [begins] at spelled
    obtain ⟨t, others, rfl, matched, _⟩ := spelled.uncons
    have kind := starts tight.2
    rw [← matched.kind] at kind
    refine ⟨t, others, rfl, Bool.or_eq_false_iff.mpr ⟨?_, ?_⟩⟩
    · refine beq_false_of_ne fun bang => ?_
      rw [bang] at kind
      cases kind
    · refine beq_false_of_ne fun minus => ?_
      rw [minus] at kind
      cases kind
  obtain ⟨t, others, rfl, other⟩ := head
  have each : ∀ b ∈ operators,
      Item isPrefixOperator take (fun t => [.kept t]) id Eq (fun _ => True) b := by
    intro b member tokens spells
    obtain ⟨u, _, rfl, same, none⟩ := spells.uncons
    cases none
    have same : b = u := same
    subst same
    have tested := fine b member
    refine ⟨⟨b, [], rfl, tested, True.intro⟩, Reads.take ?_⟩
    rcases Bool.or_eq_true_iff.mp tested with symbol | symbol
    · exact (KindTest.symbol _).goes b symbol
    · exact (KindTest.symbol _).goes b symbol
  have spelled : Spells Eq (operators.flatMap fun t => [.kept t]) operators := by
    clear fine each wraps spells
    induction operators with
    | nil => exact .nil
    | cons u rest ih => exact .kept ih
  have read : Reads (Reader.many isPrefixOperator take) operators
      (fun t => isPrefixOperator t = false) fun operators' => operators'.map id = operators.map id :=
    many (fun t none => ⟨none, True.intro⟩) each spelled
  refine read.upTo other fun operators' same => ?_
  rw [List.map_id, List.map_id] at same
  subst same
  exact (covers_chain inner core tight (Nat.lt_of_le_of_lt shorter short) _ here).andThen
    (fun t stops => stops.mono (by decide)) fun operand same => wraps operand _ same

/-- The tier takes all operators that bind as tight as the number says, and all expressions of the
level are its nodes. -/
structure Tier.Splits (tier : Tier) (p : Nat) : Prop where
  accepts : ∀ t, precedence t.kind = some p → tier.accepts t = true
  bare : ∀ id left operator right,
    (tier.build id left operator right).bare = tier.build 0 left.bare operator.bare right.bare
  parts : ∀ e : Expr, e.Shaped → e.level = p → ∃ id left operator right,
    e = tier.build id left operator right ∧ precedence operator.kind = some p ∧ left.At p ∧
      right.At (p + 1)

theorem precedence_symbol {s : Symbol} {p : Nat} (tight : precedence (.symbol s) = some p) :
    3 ≤ p := by
  cases s <;> cases tight <;> decide

theorem precedence_keyword {k : Keyword} {p : Nat} (tight : precedence (.keyword k) = some p) :
    p ≤ 2 := by
  cases k <;> cases tight <;> decide

theorem splits_logicalTier {word : Keyword} {p : Nat} (least : 1 ≤ p) (most : p ≤ 2)
    (only : ∀ k, precedence (.keyword k) = some p → k = word) : (logicalTier word).Splits p where
  accepts t tight := by
    refine beq_iff_eq.mpr ?_
    cases kind : t.kind with
    | keyword k =>
      rw [kind] at tight
      rw [only k tight]
    | symbol s =>
      rw [kind] at tight
      exact absurd (Nat.le_trans (precedence_symbol tight) most) (by decide)
    | identifier | string | number | endOfInput =>
      rw [kind] at tight
      cases tight
  bare _ _ _ _ := rfl
  parts e shaped level := by
    cases e with
    | logical id left operator right =>
      obtain ⟨⟨q, tight, _, _, onLeft, onRight⟩, leftShaped, rightShaped⟩ := shaped
      have same : q = p := by
        rw [Expr.level, tight] at level
        exact level
      subst same
      exact ⟨id, left, operator, right, rfl, tight, ⟨leftShaped, onLeft⟩, rightShaped, onRight⟩
    | binary id left operator right =>
      obtain ⟨⟨q, tight, atLeast, _⟩, _⟩ := shaped
      rw [Expr.level, tight, Option.getD_some] at level
      omega
    | literal | read | assign | unary | grouping | call | get | set | this | super =>
      rw [Expr.level] at level
      omega

theorem splits_binaryTier {symbols : List Symbol} {p : Nat} (least : 3 ≤ p) (most : p ≤ 6)
    (only : ∀ s, precedence (.symbol s) = some p → s ∈ symbols) : (binaryTier symbols).Splits p where
  accepts t tight := by
    cases kind : t.kind with
    | symbol s =>
      rw [kind] at tight
      exact List.any_eq_true.mpr ⟨s, only s tight, beq_iff_eq.mpr kind⟩
    | keyword k =>
      rw [kind] at tight
      exact absurd (Nat.le_trans least (precedence_keyword tight)) (by decide)
    | identifier | string | number | endOfInput =>
      rw [kind] at tight
      cases tight
  bare _ _ _ _ := rfl
  parts e shaped level := by
    cases e with
    | binary id left operator right =>
      obtain ⟨⟨q, tight, _, _, onLeft, onRight⟩, leftShaped, rightShaped⟩ := shaped
      have same : q = p := by
        rw [Expr.level, tight] at level
        exact level
      subst same
      exact ⟨id, left, operator, right, rfl, tight, ⟨leftShaped, onLeft⟩, rightShaped, onRight⟩
    | logical id left operator right =>
      obtain ⟨⟨q, tight, _, atMost, _⟩, _⟩ := shaped
      rw [Expr.level, tight, Option.getD_some] at level
      omega
    | literal | read | assign | unary | grouping | call | get | set | this | super =>
      rw [Expr.level] at level
      omega

theorem splits_tiers (i : Nat) (tier : Tier) (there : tiers[i]? = some tier) :
    tier.Splits (i + 1) := by
  match i with
  | 0 | 1 =>
    cases there
    refine splits_logicalTier (by decide) (by decide) fun k tight => ?_
    cases k
    all_goals first
      | rfl
      | cases tight
  | 2 | 3 | 4 | 5 =>
    cases there
    refine splits_binaryTier (by decide) (by decide) fun s tight => ?_
    cases s
    all_goals first
      | decide
      | cases tight
  | i + 6 => cases there

section Tiers

variable {tier : Tier} {p : Nat} (spelled : tier.Spelled p) (splits : tier.Splits p)
  {operand : Reader Expr} (each : Covers operand (p + 1) bound)

include spelled splits each in
theorem leads_leftToRight (n : Nat) (short : n < bound) {e : Expr} (length : e.words.length = n)
    (fits : e.At p) {tokens : List Token} (spells : Spells Token.Alike e.words tokens) :
    Leads (leftToRight tier operand)
      (repeatUpTo tier.accepts fun left => do
        let operator ← take
        let right ← operand
        node (tier.build · left operator right))
      tokens (Stops (p + 1)) fun e' => e'.bare = e.bare := by
  induction n using Nat.strongRecOn generalizing e tokens with
  | ind n ih =>
    by_cases level : p + 1 ≤ e.level
    · exact Leads.start (each e ⟨fits.1, level⟩ (length ▸ short) tokens spells)
    -- the last operator of the level: what stands left of it is read first
    · have exact_level : e.level = p := Nat.le_antisymm (by omega) fits.2
      obtain ⟨_, left, operator, right, rfl, tight, onLeft, onRight⟩ :=
        splits.parts e fits.1 exact_level
      rw [spelled.words] at spells length
      rw [List.length_append, List.length_cons] at length
      obtain ⟨front, _, rfl, before, spells⟩ := spells.split
      obtain ⟨t, rest, rfl, alike, after⟩ := spells.uncons
      have kind : precedence t.kind = some p := by
        rw [Token.Alike.kind alike]
        exact tight
      have leads := ih left.words.length (by omega) (by omega) rfl onLeft before
      refine leads.turn (splits.accepts t kind) (stops_of_operator kind (Nat.lt_succ_self p)) ?_
      intro left' same
      refine first (Reads.take (spelled.open_here t (splits.accepts t kind))) ?_
      refine (each right onRight (by omega) rest after).andThen (fun _ => id) fun right' same' => ?_
      refine Reads.node fun i => ?_
      rw [splits.bare, splits.bare, same, same', show t.bare = operator.bare from alike]

include spelled splits each in
theorem covers_leftToRight : Covers (leftToRight tier operand) p bound := by
  intro e fits short tokens spells
  have leads := leads_leftToRight spelled splits each _ short rfl fits spells
  refine leads.stop fun t stops => ⟨?_, stops.mono (Nat.le_succ p)⟩
  refine Bool.eq_false_iff.mpr fun accepted => ?_
  exact absurd (stops.operator p (spelled.binds t accepted)) (Nat.lt_irrefl p)

end Tiers

theorem covers_operatorsOver {operand : Reader Expr} (each : Covers operand 7 bound) :
    Covers (operatorsOver operand) 1 bound := by
  have factors := covers_leftToRight (spelled_tiers 5 _ rfl) (splits_tiers 5 _ rfl) each
  have terms := covers_leftToRight (spelled_tiers 4 _ rfl) (splits_tiers 4 _ rfl) factors
  have comparisons := covers_leftToRight (spelled_tiers 3 _ rfl) (splits_tiers 3 _ rfl) terms
  have equalities := covers_leftToRight (spelled_tiers 2 _ rfl) (splits_tiers 2 _ rfl) comparisons
  have conjunctions := covers_leftToRight (spelled_tiers 1 _ rfl) (splits_tiers 1 _ rfl) equalities
  exact covers_leftToRight (spelled_tiers 0 _ rfl) (splits_tiers 0 _ rfl) conjunctions

theorem stops_of_equal {t : Token} {level : Nat} (kind : t.kind = .symbol .equal)
    (above : 0 < level) : Stops level t := by
  obtain ⟨_, lexeme, line⟩ := t
  cases kind
  exact ⟨fun p tight => (by cases tight), fun _ => ⟨rfl, rfl⟩, fun zero => absurd zero (Nat.ne_of_gt above)⟩

include inner in
theorem reads_assigned {e target value : Expr} {assigned : Expr → Token → Expr → Reader Expr}
    {front rest : List Token} {sign : Token} (left : target.At 1)
    (short : target.words.length < bound + 1) (right : value.Shaped)
    (fewer : value.words.length < bound) (kind : sign.kind = .symbol .equal)
    (before : Spells Token.Alike target.words front) (after : Spells Token.Alike value.words rest)
    (build : ∀ target' value' : Expr, target'.bare = target.bare → value'.bare = value.bare →
      Reads (assigned target' sign value') [] (Stops 0) fun e' => e'.bare = e.bare) :
    Reads
      (do
        let target ← operatorsOver (unary nested)
        let t ← current
        if t.isSymbol .equal then
          let _ ← take
          let value ← nested
          assigned target t value
        else return target)
      (front ++ sign :: rest) (Stops 0) fun e' => e'.bare = e.bare := by
  have taken := Token.is_symbol kind
  have operators : Covers (operatorsOver (unary nested)) 1 (bound + 1) :=
    covers_operatorsOver (covers_unary inner)
  refine (operators target left short front before).upTo (stops_of_equal kind (by decide)) ?_
  intro target' same
  refine current_bind ?_
  rw [if_pos taken]
  refine first (Reads.take ((KindTest.symbol _).goes sign taken)) ?_
  refine (inner value ⟨right, Nat.zero_le _⟩ fewer rest after).andThen (fun _ stops => stops) ?_
  exact fun value' same' => build target' value' same same'

include inner in
theorem covers_assignment : Covers (assignment nested) 0 (bound + 1) := by
  have operators : Covers (operatorsOver (unary nested)) 1 (bound + 1) :=
    covers_operatorsOver (covers_unary inner)
  intro e fits short tokens spells
  by_cases level : 1 ≤ e.level
  · refine (operators e ⟨fits.1, level⟩ short tokens spells).andThen
      (fun t stops => stops.mono (Nat.zero_le 1)) fun e' same => peek fun t stops => ?_
    rw [if_neg (Bool.eq_false_iff.mp (stops.equal rfl))]
    exact Reads.pure same
  cases e with
  | assign id name value =>
    obtain ⟨kind, shaped⟩ := fits.1
    obtain ⟨t, _, rfl, alike, spells⟩ := spells.uncons
    obtain ⟨sign, rest, rfl, equal, spells⟩ := spells.uncons
    have target : Spells Token.Alike (Expr.read ⟨0, name⟩).words [t] := .cons alike .nil
    rw [Expr.words, List.length_cons, List.length_cons] at short
    have left : (Expr.read ⟨0, name⟩).At 1 := ⟨kind, by simp [Expr.level]⟩
    have one : (Expr.read ⟨0, name⟩).words.length < bound + 1 := by
      rw [target.length_eq]
      exact Nat.lt_of_le_of_lt (Nat.succ_le_succ (Nat.zero_le _)) short
    change Reads (assignment nested) ([t] ++ sign :: rest) _ _
    refine reads_assigned inner left one shaped (by omega) equal target spells
      fun target' value' same same' => ?_
    cases target' with
    | read use =>
      refine Reads.node fun i => ?_
      have names : use.name.bare = name.bare := by
        simpa [Expr.bare, Variable.bare] using same
      change Expr.assign 0 use.name.bare value'.bare = Expr.assign 0 name.bare value.bare
      rw [names, same']
    | _ => simp [Expr.bare] at same
  | set id object name value =>
    obtain ⟨level, shaped, kind, fine⟩ := fits.1
    rw [Expr.words, List.length_append, List.length_cons, List.length_cons, List.length_cons] at short
    obtain ⟨front, _, rfl, before, spells⟩ := spells.split
    obtain ⟨dot, _, rfl, symbol, spells⟩ := spells.uncons
    obtain ⟨t, _, rfl, alike, spells⟩ := spells.uncons
    obtain ⟨sign, rest, rfl, equal, spells⟩ := spells.uncons
    have target : Spells Token.Alike (Expr.get 0 object name).words (front ++ [dot, t]) :=
      before.append (.plain symbol (.cons alike .nil))
    have tokens : front ++ dot :: t :: sign :: rest = (front ++ [dot, t]) ++ sign :: rest := by simp
    rw [tokens]
    have left : (Expr.get 0 object name).At 1 := ⟨⟨level, shaped, kind⟩, by simp [Expr.level]⟩
    have fewer : (Expr.get 0 object name).words.length < bound + 1 := by
      rw [Expr.words, List.length_append, List.length_cons, List.length_singleton]
      omega
    refine reads_assigned inner left fewer fine (by omega) equal target spells
      fun target' value' same same' => ?_
    cases target' with
    | get i object' name' =>
      refine Reads.node fun i => ?_
      obtain ⟨objects, names⟩ : object'.bare = object.bare ∧ name'.bare = name.bare := by
        simpa [Expr.bare] using same
      change Expr.set 0 object'.bare name'.bare value'.bare =
        Expr.set 0 object.bare name.bare value.bare
      rw [objects, names, same']
    | _ => simp [Expr.bare] at same
  | binary id l operator right | logical id l operator right =>
    obtain ⟨⟨p, tight, least, _⟩, _⟩ := fits.1
    rw [Expr.level, tight, Option.getD_some] at level
    omega
  | literal | read | unary | grouping | call | get | this | super => exact absurd (by simp [Expr.level]) level

theorem covers_expressionWithin (n : Nat) : Covers (fun c => expressionWithin n c) 0 n := by
  induction n with
  | zero => exact fun e _ short => absurd short (Nat.not_lt_zero _)
  | succ n ih => exact covers_assignment ih

theorem reads_expression {e : Expr} (shaped : e.Shaped) : ReadBack expression (Stops 0) e := by
  intro tokens spells i other next
  have enough : e.words.length < (tokens ++ other).length + 1 := by
    rw [spells.length_eq, List.length_append]
    omega
  exact covers_expressionWithin _ e ⟨shaped, Nat.zero_le _⟩ enough tokens spells i other next

end Expressions

end Grammar

end LoxMachine
