import LoxMachine.Proofs.Grammar.Joined
import LoxMachine.Proofs.Grammar.Takes
import LoxMachine.Proofs.Program.Shaped

namespace LoxMachine

theorem Token.open_of_kind {t : Token} {k : Kind} (kind : t.kind = k) (inner : (k == .endOfInput) = false) :
    t.isEnding = false := by
  unfold Token.isEnding
  rw [kind]
  exact inner

def Expr.At (level : Nat) (e : Expr) : Prop := e.Shaped ∧ level ≤ e.level

theorem Expr.At.loosen {level less : Nat} {e : Expr} (fits : e.At level) (below : less ≤ level) :
    e.At less :=
  ⟨fits.1, Nat.le_trans below fits.2⟩

namespace Grammar

open Reader

def Spelling (allowed : Token → Prop) (level : Nat) (r : Reader Expr) : Prop :=
  ∀ {first : Token → Prop}, Takes allowed first r (Takes.Phrase Expr.words (Expr.At level)) Unseen

section Expressions

variable {allowed : Token → Prop} {nested : Reader Expr} (inner : Spelling allowed 0 nested)

include inner in
theorem takes_suffix {taken : List Token} {target : Expr}
    (before : Takes.Phrase Expr.words (Expr.At 8) taken target) :
    Takes allowed (fun t => (t.isSymbol .leftParen || t.isSymbol .dot) = true) (suffix nested target)
      (fun more => Takes.Phrase Expr.words (Expr.At 8) (taken ++ more)) Unseen := by
  obtain ⟨spells, shaped, level⟩ := before
  refine (Takes.take fun t tested => ?_).before fun opening tested => ?_
  · rcases Bool.or_eq_true_iff.mp tested with symbol | symbol
    · exact (KindTest.symbol _).goes t symbol
    · exact (KindTest.symbol _).goes t symbol
  split
  · rename_i paren
    refine (Takes.separatedBefore .rightParen inner).bind fun args arguments read => ?_
    refine Takes.expect.before fun closing kind => ?_
    refine Takes.node (fun i => ⟨?_, ⟨level, shaped, kind, ?_⟩, Nat.le_refl 8⟩) fun _ _ _ => True.intro
    · have parts : Spells Eq (listed (arguments.map Expr.words)) args := read.1
      rw [← exprsWords_eq] at parts
      exact spells.append (.plain (eq_of_beq paren) (parts.append (.kept .nil)))
    · exact exprsShaped_iff.mpr fun e member => (read.2 e member).1
  · rename_i paren
    have dot : opening.kind = .symbol .dot := by
      rcases Bool.or_eq_true_iff.mp tested with symbol | symbol
      · exact absurd symbol paren
      · exact eq_of_beq symbol
    refine Takes.expectName.before fun name kind => ?_
    refine Takes.node (fun i => ⟨?_, ⟨level, shaped, kind⟩, Nat.le_refl 8⟩) fun _ _ _ => True.intro
    exact spells.append (.plain dot (.kept .nil))

theorem takes_literal {t : Token} (value : Literal) (kind : t.kind = value.kind) :
    Takes allowed (· = t) (do let _ ← take; node (Expr.literal · value))
      (Takes.Phrase Expr.words (Expr.At 9)) Unseen := by
  refine (Takes.take ?_).before ?_
  · rintro u rfl
    refine Token.open_of_kind kind ?_
    cases value with
    | bool b => cases b <;> rfl
    | nil | number | string => rfl
  · rintro u rfl
    exact Takes.node (fun i => ⟨.plain kind .nil, True.intro, Nat.le_refl 9⟩) fun _ _ _ => True.intro

include inner in
theorem takes_primary : Spelling allowed 9 (primary nested) := by
  intro first
  refine Takes.current_bind fun t _ => ?_
  have taking : ∀ {k : Kind}, t.kind = k → (k == .endOfInput) = false →
      Takes allowed (· = t) take (Takes.Single (· = t)) Unseen := by
    intro k kind open_kind
    refine Takes.take ?_
    rintro u rfl
    exact Token.open_of_kind kind open_kind
  split
  · exact takes_literal _ ‹_›
  · exact takes_literal _ ‹_›
  · exact takes_literal _ ‹_›
  · exact takes_literal _ ‹_›
  · exact takes_literal _ ‹_›
  · rename_i word
    refine (taking word rfl).before ?_
    rintro u rfl
    refine Takes.expect.before fun dot symbol => ?_
    refine Takes.expectName.before fun method name => ?_
    refine Takes.node (fun i => ⟨?_, ⟨word, name⟩, Nat.le_refl 9⟩) fun _ _ _ => True.intro
    exact .kept (.plain symbol (.kept .nil))
  · rename_i word
    refine (taking word rfl).before ?_
    rintro u rfl
    exact Takes.node (fun i => ⟨.kept .nil, word, Nat.le_refl 9⟩) fun _ _ _ => True.intro
  · rename_i name
    refine (taking name rfl).before ?_
    rintro u rfl
    exact Takes.node (fun i => ⟨.kept .nil, name, Nat.le_refl 9⟩) fun _ _ _ => True.intro
  · rename_i opening
    refine (taking opening rfl).before ?_
    rintro u rfl
    refine inner.bind fun taken e read => ?_
    refine Takes.expect.before fun closing symbol => ?_
    refine Takes.node (fun i => ⟨?_, read.2.1, Nat.le_refl 9⟩) fun _ _ _ => True.intro
    exact .plain opening (read.1.append (.plain symbol .nil))
  · exact Takes.unexpected

include inner in
theorem takes_chain : Spelling allowed 8 (chain nested) := by
  intro first
  refine (takes_primary inner).bind fun taken e read => ?_
  refine Takes.repeatWhile (fun _ _ before => takes_suffix inner before) ?_
  exact ⟨read.1, read.2.loosen (by decide)⟩

/-- The operators, the last one first, are put around the operand. -/
theorem takes_prefixes {first : Token → Prop} {operators front taken : List Token} {operand : Expr}
    (fine : ∀ t ∈ operators, isPrefixOperator t = true)
    (spells : Spells Eq (operators.reverse.flatMap fun t => [.kept t]) front)
    (before : Takes.Phrase Expr.words (Expr.At 7) taken operand) :
    Takes allowed first
      (operators.foldlM (fun right operator => node (Expr.unary · operator right)) operand)
      (fun more => Takes.Phrase Expr.words (Expr.At 7) (front ++ (taken ++ more))) Unseen := by
  induction operators generalizing first front taken operand with
  | nil =>
    cases spells
    refine Takes.pure ?_ fun _ _ => True.intro
    rw [List.append_nil]
    exact before
  | cons operator rest ih =>
    obtain ⟨here, others⟩ := List.forall_mem_cons.mp fine
    rw [List.reverse_cons, List.flatMap_append, List.flatMap_singleton] at spells
    obtain ⟨front, last, rfl, fronts, one⟩ := spells.split
    cases one with
    | cons same none =>
      cases none
      cases same
      have symbol : operator.kind = .symbol .bang ∨ operator.kind = .symbol .minus := by
        rcases Bool.or_eq_true_iff.mp here with bang | minus
        · exact .inl (eq_of_beq bang)
        · exact .inr (eq_of_beq minus)
      rw [List.foldlM_cons]
      have built : ∀ i, Takes.Phrase Expr.words (Expr.At 7) (operator :: taken)
          (.unary i operator operand) := fun i =>
        ⟨.kept before.1, ⟨symbol, before.2.2, before.2.1⟩, Nat.le_refl 7⟩
      have one : Takes allowed first (node (Expr.unary · operator operand))
          (fun more e => more = [] ∧ Takes.Phrase Expr.words (Expr.At 7) (operator :: taken) e)
          Unseen :=
        Takes.node (fun i => ⟨rfl, built i⟩) fun _ _ _ => True.intro
      refine one.bind fun more e now => ?_
      obtain ⟨rfl, now⟩ := now
      refine (ih others fronts now).mono fun more e whole => ?_
      rw [List.append_assoc]
      exact whole

include inner in
theorem takes_unary : Spelling allowed 7 (unary nested) := by
  intro first
  have operator : Takes allowed (isPrefixOperator · = true) take
      (Takes.Phrase (fun t => [.kept t]) (isPrefixOperator · = true)) Unseen := by
    refine (Takes.take fun t tested => ?_).mono fun taken t one => ?_
    · rcases Bool.or_eq_true_iff.mp tested with symbol | symbol
      · exact (KindTest.symbol _).goes t symbol
      · exact (KindTest.symbol _).goes t symbol
    · obtain ⟨here, rfl⟩ := one
      exact ⟨.kept .nil, here⟩
  refine (Takes.many operator).bind fun front operators read => ?_
  refine (takes_chain inner).bind fun taken operand now => ?_
  obtain ⟨spells, fine⟩ := read
  rw [← operators.reverse_reverse] at spells
  refine takes_prefixes (fun t member => fine t (List.mem_reverse.mp member)) spells ?_
  exact ⟨now.1, now.2.loosen (by decide)⟩

/-- The operators of a tier bind as tight as the number says, and its nodes keep all their parts. -/
structure Tier.Spelled (tier : Tier) (p : Nat) : Prop where
  binds : ∀ t, tier.accepts t = true → precedence t.kind = some p
  words : ∀ id left operator right,
    (tier.build id left operator right).words = left.words ++ .kept operator :: right.words
  shaped : ∀ id left operator right, precedence operator.kind = some p → left.At p →
    right.At (p + 1) → (tier.build id left operator right).At p

theorem Tier.Spelled.open_here {tier : Tier} {p : Nat} (spelled : tier.Spelled p) (t : Token)
    (accepted : tier.accepts t = true) : t.isEnding = false := by
  refine Token.open_of_kind rfl (beq_false_of_ne fun ending => ?_)
  have tight := spelled.binds t accepted
  rw [ending] at tight
  cases tight

theorem spelled_logicalTier {word : Keyword} {p : Nat} (tight : precedence (.keyword word) = some p)
    (least : 1 ≤ p) (most : p ≤ 2) : (logicalTier word).Spelled p where
  binds t accepted := (congrArg precedence (eq_of_beq accepted)).trans tight
  words _ _ _ _ := rfl
  shaped _ _ operator _ same left right := by
    refine ⟨⟨⟨p, same, least, most, left.2, right.2⟩, left.1, right.1⟩, Nat.le_of_eq ?_⟩
    change p = (precedence operator.kind).getD 0
    rw [same]
    rfl

theorem spelled_binaryTier {symbols : List Symbol} {p : Nat}
    (tight : ∀ s ∈ symbols, precedence (.symbol s) = some p) (least : 3 ≤ p) (most : p ≤ 6) :
    (binaryTier symbols).Spelled p where
  binds t accepted := by
    obtain ⟨s, member, same⟩ := List.any_eq_true.mp accepted
    exact (congrArg precedence (eq_of_beq same)).trans (tight s member)
  words _ _ _ _ := rfl
  shaped _ _ operator _ same left right := by
    refine ⟨⟨⟨p, same, least, most, left.2, right.2⟩, left.1, right.1⟩, Nat.le_of_eq ?_⟩
    change p = (precedence operator.kind).getD 0
    rw [same]
    rfl

theorem takes_leftToRight {tier : Tier} {p : Nat} (spelled : tier.Spelled p) {operand : Reader Expr}
    (each : Spelling allowed (p + 1) operand) : Spelling allowed p (leftToRight tier operand) := by
  intro first
  refine each.bind fun taken e read => ?_
  refine Takes.repeatWhile (fun taken left before => ?_) ⟨read.1, read.2.loosen (Nat.le_succ p)⟩
  refine (Takes.take spelled.open_here).before fun operator accepted => ?_
  refine each.bind fun more right now => ?_
  refine Takes.node (fun i => ⟨?_, ?_⟩) fun _ _ _ => True.intro
  · rw [spelled.words, List.append_nil]
    exact before.1.append (.kept now.1)
  · exact spelled.shaped i left operator right (spelled.binds operator accepted) before.2 now.2

theorem spelled_tiers (i : Nat) (tier : Tier) (there : tiers[i]? = some tier) :
    tier.Spelled (i + 1) := by
  match i with
  | 0 | 1 =>
    cases there
    exact spelled_logicalTier rfl (by decide) (by decide)
  | 2 | 3 | 4 | 5 =>
    cases there
    exact spelled_binaryTier (by decide) (by decide) (by decide)
  | i + 6 => cases there

theorem takes_operatorsOver {operand : Reader Expr} (each : Spelling allowed 7 operand) :
    Spelling allowed 1 (operatorsOver operand) := by
  have factors : Spelling allowed 6 _ := takes_leftToRight (spelled_tiers 5 _ rfl) each
  have terms : Spelling allowed 5 _ := takes_leftToRight (spelled_tiers 4 _ rfl) factors
  have comparisons : Spelling allowed 4 _ := takes_leftToRight (spelled_tiers 3 _ rfl) terms
  have equalities : Spelling allowed 3 _ := takes_leftToRight (spelled_tiers 2 _ rfl) comparisons
  have conjunctions : Spelling allowed 2 _ := takes_leftToRight (spelled_tiers 1 _ rfl) equalities
  intro first
  exact takes_leftToRight (spelled_tiers 0 _ rfl) conjunctions

include inner in
theorem takes_assignment : Spelling allowed 0 (assignment nested) := by
  intro first
  refine (takes_operatorsOver (takes_unary inner)).bind fun taken target read => ?_
  refine Takes.current_bind fun t _ => ?_
  split
  · rename_i equal
    refine (Takes.take ?_).before ?_
    · rintro u rfl
      exact (KindTest.symbol .equal).goes u equal
    rintro u rfl
    refine inner.bind fun more value now => ?_
    obtain ⟨spells, ⟨shaped, _⟩⟩ := read
    have sign : u.kind = .symbol .equal := eq_of_beq equal
    split
    · refine Takes.node (fun i => ⟨?_, ⟨shaped, now.2.1⟩, Nat.le_refl 0⟩) fun _ _ _ => True.intro
      rw [List.append_nil]
      exact spells.append (.plain sign now.1)
    · rename_i id object name
      obtain ⟨level, fine, kind⟩ := shaped
      refine Takes.node (fun i => ⟨?_, ⟨level, fine, kind, now.2.1⟩, Nat.le_refl 0⟩)
        fun _ _ _ => True.intro
      have whole := spells.append (.plain sign now.1)
      rw [Expr.words, List.append_assoc] at whole
      rw [List.append_nil]
      exact whole
    · exact Takes.unexpected
  · refine Takes.pure ?_ fun _ _ => True.intro
    rw [List.append_nil]
    exact ⟨read.1, read.2.loosen (by decide)⟩

end Expressions

section Statements

variable {allowed : Token → Prop}

theorem takes_expressionWithin (n : Nat) : Spelling allowed 0 fun c => expressionWithin n c := by
  induction n with
  | zero =>
    intro first c a c' _ _ read
    cases read
  | succ n ih => exact takes_assignment ih

theorem takes_expression : Spelling allowed 0 expression :=
  fun c => takes_expressionWithin (c.rest.length + 1) c

def Closed (s : Stmt) (t : Token) : Prop := s.EndsOpen → t.isKeyword .elseWord = false

def Declaring (allowed : Token → Prop) (r : Reader Stmt) : Prop :=
  ∀ {first : Token → Prop}, Takes allowed first r (Takes.Phrase Stmt.words Stmt.Shaped) Closed

def Stating (allowed : Token → Prop) (r : Reader Stmt) : Prop :=
  ∀ {first : Token → Prop},
    Takes allowed first r (Takes.Phrase Stmt.words fun s => s.Shaped ∧ s.Plain) Closed

theorem takes_expressionStatement : Stating allowed expressionStatement := by
  intro first
  refine takes_expression.bind fun taken e read => ?_
  refine Takes.expect.before fun semicolon kind => ?_
  refine Takes.node (fun i => ⟨?_, read.2.1, True.intro⟩) fun _ _ _ => False.elim
  exact read.1.append (.plain kind .nil)

theorem takes_optionalBefore (closing : Symbol) {first : Token → Prop} :
    Takes allowed first (optionalBefore closing expression)
      (Takes.Phrase valueWords OptionalShaped) Unseen := by
  refine Takes.current_bind fun t _ => ?_
  split
  · exact Takes.pure ⟨.nil, True.intro⟩ fun _ _ => True.intro
  · refine takes_expression.bind fun taken e read => Takes.pure ?_ fun _ _ => True.intro
    rw [List.append_nil]
    exact ⟨read.1, read.2.1⟩

theorem takes_variable {t name : Token} (word : t.kind = .keyword .varWord)
    (kind : name.kind = .identifier) {first : Token → Prop} {front : List Token}
    {initializer : Option Expr} (spells : Spells Eq (initializerWords initializer) front)
    (shaped : OptionalShaped initializer) :
    Takes allowed first
      (do let _ ← expect .semicolon .afterVariable; node (Stmt.var · name initializer))
      (fun more => Takes.Phrase Stmt.words Stmt.Shaped (t :: name :: (front ++ more))) Closed := by
  refine Takes.expect.before fun semicolon ends => ?_
  refine Takes.node (fun i => ⟨?_, kind, shaped⟩) fun _ _ _ => False.elim
  exact .plain word (.kept (spells.append (.plain ends .nil)))

theorem takes_varDeclaration {t : Token} (word : t.kind = .keyword .varWord)
    {first : Token → Prop} :
    Takes allowed first varDeclaration
      (fun taken => Takes.Phrase Stmt.words Stmt.Shaped (t :: taken)) Closed := by
  refine Takes.expectName.before fun name kind => ?_
  refine Takes.takeIf_bind (KindTest.symbol .equal) (fun equal _ sign => ?_) ?_
  · have value : Takes allowed Any (some <$> expression)
        (fun taken => Takes.Phrase initializerWords OptionalShaped (equal :: taken)) Unseen := by
      refine Takes.map (takes_expression.mono fun taken e read => ?_) fun _ _ => id
      exact ⟨.plain (eq_of_beq sign) read.1, read.2.1⟩
    exact value.bind fun taken value read => takes_variable word kind read.1 read.2
  · have nothing : Spells Eq (initializerWords none) [] := .nil
    exact takes_variable word kind nothing True.intro

section Nested

variable {declaration statement : Reader Stmt} (declarations : Declaring allowed declaration)
  (statements : Stating allowed statement)

include declarations in
theorem takes_block {first : Token → Prop} :
    Takes allowed first (block declaration)
      (Takes.Phrase (fun body => stmtsWords body ++ [.plain (.symbol .rightBrace)]) StmtsShaped)
      Unseen := by
  refine (Takes.many declarations).bind fun taken body read => ?_
  refine Takes.expect.before fun brace kind => Takes.pure ?_ fun _ _ => True.intro
  have spells : Spells Eq (body.flatMap Stmt.words) taken := read.1
  rw [← stmtsWords_eq] at spells
  exact ⟨spells.append (.plain kind .nil), stmtsShaped_iff.mpr read.2⟩

include declarations in
theorem takes_function (sort : FunctionSort) {first : Token → Prop} :
    Takes allowed first (function declaration sort)
      (Takes.Phrase FunctionDecl.words FunctionDecl.Shaped) Unseen := by
  have parameter : ∀ {first : Token → Prop}, Takes allowed first (expectName .parameter)
      (Takes.Phrase (fun p => [.kept p]) (·.kind = .identifier)) Unseen := by
    intro first
    refine Takes.expectName.mono fun taken p one => ?_
    obtain ⟨kind, rfl⟩ := one
    exact ⟨.kept .nil, kind⟩
  refine Takes.expectName.before fun name kind => ?_
  refine Takes.expect.before fun opening left => ?_
  refine (Takes.separatedBefore .rightParen parameter).bind fun taken params read => ?_
  refine Takes.expect.before fun closing right => ?_
  refine Takes.expect.before fun brace begins => ?_
  refine (takes_block declarations).bind fun more body now => ?_
  refine Takes.node (fun i => ⟨?_, kind, read.2, now.2⟩) fun _ _ _ => True.intro
  have listing : Spells Eq (listed (params.map fun p => [.kept p])) taken := read.1
  have heading : Spells Eq (paramsWords params) (opening :: (taken ++ [closing])) :=
    .plain left (listing.append (.plain right .nil))
  have whole := Spells.kept (t := name) (heading.append (.plain begins now.1))
  simpa [FunctionDecl.words] using whole

include declarations in
theorem takes_classBody {t name : Token} (word : t.kind = .keyword .classWord)
    (kind : name.kind = .identifier) {first : Token → Prop} {front : List Token}
    {superclass : Option Variable} (spells : Spells Eq (heritageWords superclass) front)
    (shaped : HeritageShaped superclass) :
    Takes allowed first
      (do
        let _ ← expect .leftBrace .beforeClassBody
        let methods ←
          many (fun t => !t.isSymbol .rightBrace && !t.isEnding) (function declaration .method)
        let _ ← expect .rightBrace .afterClassBody
        node (Stmt.classDecl · name superclass methods))
      (fun more => Takes.Phrase Stmt.words Stmt.Shaped (t :: name :: (front ++ more))) Closed := by
  refine Takes.expect.before fun brace begins => ?_
  refine (Takes.many (takes_function declarations .method)).bind fun taken methods read => ?_
  refine Takes.expect.before fun last ends => ?_
  refine Takes.node (fun i => ⟨?_, kind, shaped, methodsShaped_iff.mpr read.2⟩) fun _ _ _ => False.elim
  have methodWords : Spells Eq (methods.flatMap FunctionDecl.words) taken := read.1
  rw [← methodsWords_eq] at methodWords
  exact .plain word (.kept (spells.append (.plain begins (methodWords.append (.plain ends .nil)))))

include declarations in
theorem takes_classDeclaration {t : Token} (word : t.kind = .keyword .classWord)
    {first : Token → Prop} :
    Takes allowed first (classDeclaration declaration)
      (fun taken => Takes.Phrase Stmt.words Stmt.Shaped (t :: taken)) Closed := by
  refine Takes.expectName.before fun name kind => ?_
  refine Takes.takeIf_bind (KindTest.symbol .less) (fun less _ sign => ?_) ?_
  · refine Takes.expectName.before fun superName known => ?_
    have use : Takes allowed Any (node (Variable.mk · superName))
        (fun more use => Takes.Phrase heritageWords HeritageShaped (less :: superName :: more) (some use))
        Unseen :=
      Takes.node (fun i => ⟨.plain (eq_of_beq sign) (.kept .nil), known⟩) fun _ _ _ => True.intro
    have heritage : Takes allowed Any (some <$> node (Variable.mk · superName))
        (fun more => Takes.Phrase heritageWords HeritageShaped (less :: superName :: more)) Unseen :=
      use.map fun _ _ => id
    exact heritage.bind fun more superclass read =>
      takes_classBody declarations word kind read.1 read.2
  · have nothing : Spells Eq (heritageWords none) [] := .nil
    exact takes_classBody declarations word kind nothing True.intro

def Continuing (allowed : Token → Prop) (t : Token) (r : Reader Stmt) : Prop :=
  ∀ {first : Token → Prop},
    Takes allowed first r
      (fun taken => Takes.Phrase Stmt.words (fun s => s.Shaped ∧ s.Plain) (t :: taken)) Closed

include statements in
theorem takes_conditional {t : Token} (word : t.kind = .keyword .ifWord) :
    Continuing allowed t (conditional statement) := by
  intro first
  refine Takes.expect.before fun opening left => ?_
  refine takes_expression.bind fun taken condition tested => ?_
  refine Takes.expect.before fun closing right => ?_
  refine statements.bind fun chosen yes now => ?_
  obtain ⟨yesWords, yesShaped, yesPlain⟩ := now
  refine Takes.takeIf_bind (KindTest.word .elseWord) (fun separator closed other => ?_) ?_
  · have no : Takes allowed Any (some <$> statement)
        (fun rest no => ∃ s, no = some s ∧
          Takes.Phrase Stmt.words (fun s => s.Shaped ∧ s.Plain) rest s)
        fun no next => ∀ s, no = some s → Closed s next := by
      refine Takes.map (statements.mono fun rest s read => ⟨s, rfl, read⟩) fun s next closed => ?_
      rintro _ ⟨⟩
      exact closed
    refine no.bind fun rest _ read => ?_
    obtain ⟨s, rfl, noWords, noShaped, noPlain⟩ := read
    -- the `else` would have been taken by a condition at the end of the branch
    have ended : ¬ yes.EndsOpen := by
      intro ends
      exact absurd (other.symm.trans (closed ends)) (by decide)
    have shaped : ∀ i, (Stmt.branch i condition yes (some s)).Shaped := fun i =>
      ⟨tested.2.1, ⟨yesShaped, yesPlain, ended⟩, noShaped, noPlain⟩
    refine Takes.node (fun i => ⟨?_, shaped i, True.intro⟩) fun _ next follows => follows s rfl
    rw [List.append_nil]
    refine .plain word (.plain left (tested.1.append (.plain right (yesWords.append ?_))))
    exact .plain (eq_of_beq other) noWords
  · have alone : Takes allowed (fun next => Closed yes next ∧ next.isKeyword .elseWord = false)
        (node (Stmt.branch · condition yes none))
        (fun more => Takes.Phrase Stmt.words (fun s => s.Shaped ∧ s.Plain)
          (t :: opening :: (taken ++ closing :: (chosen ++ more)))) Closed := by
      refine Takes.node (fun i => ⟨?_, ⟨tested.2.1, yesShaped, yesPlain⟩, True.intro⟩) ?_
      · rw [List.append_nil]
        exact .plain word (.plain left (tested.1.append (.plain right yesWords)))
      · intro i next seen _
        exact seen.2
    exact alone

include statements in
theorem takes_whileLoop {t : Token} (word : t.kind = .keyword .whileWord) :
    Continuing allowed t (whileLoop statement) := by
  intro first
  refine Takes.expect.before fun opening left => ?_
  refine takes_expression.bind fun taken condition tested => ?_
  refine Takes.expect.before fun closing right => ?_
  refine statements.bind fun more body now => ?_
  refine Takes.node (fun i => ⟨?_, ⟨tested.2.1, now.2⟩, True.intro⟩) fun _ _ => id
  rw [List.append_nil]
  exact .plain word (.plain left (tested.1.append (.plain right now.1)))

theorem takes_printStatement {t : Token} (word : t.kind = .keyword .printWord) :
    Continuing allowed t printStatement := by
  intro first
  refine takes_expression.bind fun taken e read => ?_
  refine Takes.expect.before fun semicolon ends => ?_
  refine Takes.node (fun i => ⟨?_, read.2.1, True.intro⟩) fun _ _ _ => False.elim
  exact .plain word (read.1.append (.plain ends .nil))

theorem takes_returnStatement {t : Token} (word : t.kind = .keyword .returnWord) :
    Continuing allowed t (returnStatement t) := by
  intro first
  refine (takes_optionalBefore .semicolon).bind fun taken value read => ?_
  refine Takes.expect.before fun semicolon ends => ?_
  refine Takes.node (fun i => ⟨?_, ⟨word, read.2⟩, True.intro⟩) fun _ _ _ => False.elim
  exact .kept (read.1.append (.plain ends .nil))

theorem takes_afterWord {t : Token} {k : Kind} {r : Reader Stmt} {made : List Token → Stmt → Prop}
    (kind : t.kind = k) (inner : (k == .endOfInput) = false)
    (rest : Takes allowed Any r (fun taken => made (t :: taken)) Closed) :
    Takes allowed (· = t) (do let _ ← take; r) made Closed := by
  refine (Takes.take ?_).before ?_
  · rintro u rfl
    exact Token.open_of_kind kind inner
  · rintro u rfl
    exact rest

include declarations statements in
theorem takes_statementOver (never : ∀ t, allowed t → t.kind ≠ .keyword .forWord) :
    Stating allowed (statementOver declaration statement) := by
  intro first
  refine Takes.current_bind fun t _ => ?_
  split
  · rename_i word
    refine Takes.absent ?_ ?_
    · rintro u rfl
      exact Token.open_of_kind word rfl
    · rintro u rfl fine
      exact never u fine word
  · rename_i word
    exact takes_afterWord word rfl (takes_conditional statements word)
  · rename_i word
    exact takes_afterWord word rfl (takes_printStatement word)
  · rename_i word
    exact takes_afterWord word rfl (takes_returnStatement word)
  · rename_i word
    exact takes_afterWord word rfl (takes_whileLoop statements word)
  · rename_i begins
    refine takes_afterWord begins rfl ((takes_block declarations).bind fun taken body read => ?_)
    refine Takes.node (fun i => ⟨?_, read.2, True.intro⟩) fun _ _ _ => False.elim
    rw [List.append_nil]
    exact .plain begins read.1
  · exact takes_expressionStatement

include declarations statements in
theorem takes_declarationOver (never : ∀ t, allowed t → t.kind ≠ .keyword .forWord) :
    Declaring allowed (declarationOver declaration statement) := by
  intro first
  refine Takes.current_bind fun t _ => ?_
  split
  · rename_i word
    exact takes_afterWord word rfl (takes_classDeclaration declarations word)
  · rename_i word
    have whole : Takes allowed Any (function declaration .function)
        (fun taken decl => Takes.Phrase Stmt.words Stmt.Shaped (t :: taken) (.function decl)) Unseen :=
      (takes_function declarations .function).mono fun taken decl read =>
        ⟨.plain word read.1, read.2⟩
    exact takes_afterWord word rfl (whole.map fun _ _ _ => False.elim)
  · rename_i word
    exact takes_afterWord word rfl (takes_varDeclaration word)
  · exact (takes_statementOver declarations statements never).mono fun taken s read =>
      ⟨read.1, read.2.1⟩

end Nested

theorem takes_within (never : ∀ t, allowed t → t.kind ≠ .keyword .forWord) (n : Nat) :
    Declaring allowed (fun c => declarationWithin n c) ∧
      Stating allowed fun c => statementWithin n c := by
  induction n with
  | zero =>
    constructor
    · intro first c s c' _ _ read
      cases read
    · intro first c s c' _ _ read
      cases read
  | succ n ih =>
    exact ⟨takes_declarationOver ih.1 ih.2 never, takes_statementOver ih.1 ih.2 never⟩

theorem takes_program (never : ∀ t, allowed t → t.kind ≠ .keyword .forWord) {first : Token → Prop} :
    Takes allowed first program (Takes.Phrases Stmt.words Stmt.Shaped) Unseen := by
  have each : Declaring allowed declaration := fun c => (takes_within never (c.rest.length + 1)).1 c
  exact Takes.many each

end Statements

/-- A program that is read from tokens without a `for` loop loses none of them: its words, written
back, are the tokens up to its end, and it has the shape of the grammar. -/
theorem spells_of_parse {i : NodeId} {front : List Token} {closing : Token} {body : List Stmt}
    {stop : Cursor} (last : closing.isEnding = true)
    (inner : ∀ t ∈ front, t.isEnding = false ∧ t.kind ≠ .keyword .forWord)
    (parsed : parse i (front ++ [closing]) = (.ok body, stop)) :
    Spells Eq (stmtsWords body) front ∧
      ((∀ t ∈ front, t.Spelled) →
        List.zipWith (fun w t => w.write t) (stmtsWords body) front = front) ∧
      StmtsShaped body := by
  have never : ∀ t ∈ front ++ [closing], t.kind ≠ .keyword .forWord := by
    intro t member word
    rcases List.mem_append.mp member with there | there
    · exact (inner t there).2 word
    · rw [List.mem_singleton.mp there] at word
      exact absurd (last.symm.trans (Token.open_of_kind word rfl)) (by decide)
  obtain ⟨taken, split, open_taken, ended, _⟩ := parse_elsewhere parsed 0 0
  obtain ⟨rfl, rest⟩ := taken_of_words split (fun t there => (inner t there).1) open_taken last ended
  have whole : program ⟨taken ++ [closing], i⟩ = .ok body stop :=
    program_eq_ok.mpr (parse_eq_ok.mp parsed)
  obtain ⟨taken', split', phrases, _⟩ := @takes_program _ (fun _ => id) Any _ _ _ never True.intro whole
  have same : taken = taken' := List.append_cancel_right (split.symm.trans split')
  subst same
  have spells : Spells Eq (body.flatMap Stmt.words) taken := phrases.1
  rw [← stmtsWords_eq] at spells
  exact ⟨spells, spells.written, stmtsShaped_iff.mpr phrases.2⟩

def propertyTokens : List Token :=
  [⟨.identifier, "a", 1⟩, ⟨.symbol .dot, ".", 1⟩, ⟨.identifier, "b", 1⟩, ⟨.symbol .equal, "=", 1⟩,
    ⟨.symbol .minus, "-", 1⟩, ⟨.identifier, "c", 1⟩, ⟨.symbol .semicolon, ";", 1⟩]

def propertyProgram : List Stmt :=
  [.expression 5 (.set 4 (.read ⟨0, ⟨.identifier, "a", 1⟩⟩) ⟨.identifier, "b", 1⟩
    (.unary 3 ⟨.symbol .minus, "-", 1⟩ (.read ⟨2, ⟨.identifier, "c", 1⟩⟩)))]

theorem spells_of_property :
    parse 0 (propertyTokens ++ [.ending 1]) = (.ok propertyProgram, ⟨[.ending 1], 6⟩) ∧
      Spells Eq (stmtsWords propertyProgram) propertyTokens ∧
      ((∀ t ∈ propertyTokens, t.Spelled) →
        List.zipWith (fun w t => w.write t) (stmtsWords propertyProgram) propertyTokens =
          propertyTokens) ∧
      StmtsShaped propertyProgram :=
  have parsed : parse 0 (propertyTokens ++ [.ending 1]) = (.ok propertyProgram, ⟨[.ending 1], 6⟩) := rfl
  ⟨parsed, spells_of_parse rfl (by decide) parsed⟩

end Grammar

end LoxMachine
