import LoxMachine.Proofs.Grammar.Prefixes
import LoxMachine.Proofs.Grammar.ReadsDeclaration
import LoxMachine.Proofs.Grammar.Repairs
import LoxMachine.Proofs.Grammar.Tame

namespace LoxMachine

instance : Nonempty Token := ⟨.ending 0⟩
instance : Nonempty Expr := ⟨.literal 0 .nil⟩
instance : Nonempty Stmt := ⟨.block 0 []⟩
instance : Nonempty FunctionDecl := ⟨.mk 0 (.ending 0) [] []⟩
instance : Nonempty Variable := ⟨⟨0, .ending 0⟩⟩

namespace Grammar

open Reader

variable {ι : Type} {room : Nat}

theorem mends_expect (s : Symbol) (place : Place) :
    Mends room Tame Tame True (·.isSymbol s = true) Any (expect s place)
      fun _ : ι => expect s place :=
  .wanted ⟨.symbol s, s.spelling, 1⟩ (beq_self_eq_true _) (KindTest.symbol s).goes
    (fun _ => Tame.some_left) fun _ _ => Tame.symbol

theorem mends_closed {α γ : Type} (s : Symbol) (place : Place) {build : Token → NodeId → α}
    {build' : ι → Token → NodeId → γ} :
    Mends room Tame Tame True (·.isSymbol s = true) Any (expect s place >>= fun t => node (build t))
      fun x => expect s place >>= fun t => node (build' x t) :=
  (mends_expect s place).yield (fun _ => .node) (.inl True.intro)

theorem open_of_name {t : Token} (name : t.kind = .identifier) : t.isEnding = false := by
  refine beq_false_of_ne fun ending => ?_
  cases name.symm.trans ending

theorem mends_expectName (role : NameRole) :
    Mends room Tame Tame True (·.kind = .identifier) Any (expectName role)
      fun _ : ι => expectName role :=
  .wanted ⟨.identifier, "a", 1⟩ rfl (fun _ => open_of_name) (fun _ => Tame.some_left)
    fun _ _ => Tame.name

theorem tame_tail {test : Token → Bool} (kindly : KindTest test)
    (other : ∀ t, test t = true → t.isKeyword .varWord = false) {rest : List Token}
    (here : Tame rest ∧ test (headOf rest) = true) :
    ∃ t behind, rest = t :: behind ∧ test t = true ∧ Tame behind := by
  obtain ⟨tame, tested⟩ := here
  have goes := kindly.goes _ tested
  obtain ⟨behind, split⟩ := cons_of_headOf goes
  exact ⟨headOf rest, behind, split, tested, (split ▸ tame).tail goes (other _ tested)⟩

section Behind

variable {α γ : Type} {starts may : Token → Prop} {r : Reader α} {r' : ι → Reader γ} {t : Token}

theorem repairs_behind {mid : List Token → Prop} {f : ι → Token → Reader γ}
    (goes : t.isEnding = false) (steps : ∀ behind, Tame (t :: behind) → mid behind)
    (rest : Repairs room mid Tame False Any may r r') (same : ∀ x, f x t = take >>= fun _ => r' x) :
    Repairs (room + 1) (fun rest => Tame rest ∧ headOf rest = t) Tame True starts may
      (take >>= fun _ => r) fun x => current >>= f x := by
  have heads : ∀ tokens, Tame tokens ∧ headOf tokens = t →
      ∃ u behind, tokens = u :: behind ∧ u = t ∧ mid behind := by
    rintro tokens ⟨tame, rfl⟩
    obtain ⟨behind, split⟩ := cons_of_headOf goes
    exact ⟨headOf tokens, behind, split, rfl, steps behind (split ▸ tame)⟩
  have taking : Repairs (room + 1) (fun rest => Tame rest ∧ headOf rest = t) Tame True Never may
      (take >>= fun _ => r) (f · t) := by
    simp only [same]
    exact .take_bind heads (fun u same => same ▸ goes) (Nat.le_refl _) fun _ _ => rest
  exact (taking.look (fun _ => False.elim) (.inl True.intro)).anyhow

theorem repairs_taken {f : ι → Token → Reader γ} (goes : t.isEnding = false)
    (other : t.isKeyword .varWord = false) (rest : Repairs room Tame Tame False Any may r r')
    (same : ∀ x, f x t = take >>= fun _ => r' x) :
    Repairs (room + 1) (fun rest => Tame rest ∧ headOf rest = t) Tame True starts may
      (take >>= fun _ => r) fun x => current >>= f x :=
  repairs_behind goes (fun _ tame => tame.tail goes other) rest same

end Behind

def IsNil (t : Token) : Prop := t.kind = .keyword .nilWord

def nilToken : Token := ⟨.keyword .nilWord, "nil", 1⟩

theorem nil_other {t : Token} (here : IsNil t) {s : Symbol} : t.isSymbol s = false := by
  refine beq_false_of_ne fun symbol => ?_
  cases here.symm.trans symbol

def MendsExpr (room : Nat) (r : Reader Expr) (r' : ι → Reader Expr) : Prop :=
  Mends room Tame Tame True IsNil (Stops 0) r r'

section Expressions

def opensSuffix (t : Token) : Bool := t.isSymbol .leftParen || t.isSymbol .dot

theorem opensSuffix_kindly : KindTest opensSuffix :=
  .ofKind (fun kind => kind == .symbol .leftParen || kind == .symbol .dot) rfl

theorem opensSuffix_other (t : Token) (opens : opensSuffix t = true) :
    t.isKeyword .varWord = false := by
  refine beq_false_of_ne fun word => ?_
  unfold opensSuffix Token.isSymbol at opens
  rw [word] at opens
  cases opens

theorem stops_of_symbol {t : Token} {s : Symbol} (here : t.isSymbol s = true)
    (closes : s = .comma ∨ s = .rightParen ∨ s = .semicolon) : Stops 0 t :=
  stops_of_closing (eq_of_beq here) closes

variable {nested : Reader Expr} {nested' : ι → Reader Expr} (inner : MendsExpr room nested nested')

include inner in
theorem mends_arguments :
    Mends room Tame Tame False (OneOf IsNil (·.isSymbol .rightParen = true))
      (·.isSymbol .rightParen = true) (separatedBefore .rightParen nested)
      fun x => separatedBefore .rightParen (nested' x) := by
  refine .separatedBefore (fun _ => Tame.some_left) .rightParen inner (fun _ _ => Tame.symbol) ?_
    fun _ here => nil_other here
  exact fun u closes => ⟨u.other_symbol closes (by decide), stops_of_symbol closes (.inr (.inl rfl))⟩

include inner in
theorem repairs_suffix (target : Expr) :
    Repairs (room + 1) (fun rest => Tame rest ∧ opensSuffix (headOf rest) = true) Tame True Never Any
      (suffix nested target) fun x : ι × Expr => suffix (nested' x.1) x.2 := by
  refine .take_bind (fun _ => tame_tail opensSuffix_kindly opensSuffix_other) opensSuffix_kindly.goes
    (Nat.le_refl _) fun opening _ => ?_
  cases called : opening.isSymbol .leftParen with
  | true =>
    simp only [if_true]
    have arguments := (mends_arguments inner).reindex (fun x : ι × Expr => x.1) fun _ => rfl
    exact (arguments.upTo (fun _ => mends_closed _ _) (fun _ next => next)
      (.inr fun _ next => .inr next)).loose
  | false =>
    simp only [Bool.false_eq_true, if_false]
    exact ((mends_expectName .property).yield (fun _ => .node) (.inl True.intro)).loose

include inner in
theorem mends_primary :
    Mends (room + 1) Tame Tame True IsNil Any (primary nested) fun x => primary (nested' x) := by
  have nil_passes : Passes (fun x => primary (nested' x)) [nilToken] Any :=
    fun _ _ _ _ _ => ⟨_, _, rfl⟩
  refine Mends.current_bind (fun t => ?_) fun _ => .single (t := nilToken) rfl rfl nil_passes
  obtain ⟨kind, lexeme, line⟩ := t
  dsimp only
  split
  · exact repairs_taken rfl rfl Mends.node.toRepairs fun _ => rfl
  · exact repairs_taken rfl rfl Mends.node.toRepairs fun _ => rfl
  · exact repairs_taken rfl rfl Mends.node.toRepairs fun _ => rfl
  · exact repairs_taken rfl rfl Mends.node.toRepairs fun _ => rfl
  · exact repairs_taken rfl rfl Mends.node.toRepairs fun _ => rfl
  · exact repairs_taken rfl rfl (Mends.loose (.follow (mends_expect _ _) fun _ =>
      .yield (mends_expectName _) (fun _ => .node) (.inl True.intro))) fun _ => rfl
  · exact repairs_taken rfl rfl Mends.node.toRepairs fun _ => rfl
  · exact repairs_taken rfl rfl Mends.node.toRepairs fun _ => rfl
  · have closes : ∀ u : Token, u.isSymbol .rightParen = true → Stops 0 u :=
      fun _ next => stops_of_symbol next (.inr (.inl rfl))
    exact repairs_taken rfl rfl (Mends.loose
      (.upTo inner (fun _ => mends_closed _ _) closes (.inl True.intro))) fun _ => rfl
  · rename_i number string _ _ _ _
    refine .unexpected (fun _ => Tame.some_left)
      (fun _ => ⟨nilToken, [], .single rfl, rfl, nil_passes⟩) fun _ x j other => ?_
    rw [Carries.current_eq]
    dsimp only [Cursor.current, List.singleton_append, List.head?_cons, Option.getD_some]
    split
    all_goals first
      | exact ⟨_, _, rfl⟩
      | contradiction
      | exact (number _ rfl).elim
      | exact (string _ rfl).elim

include inner in
theorem mends_chain : MendsExpr (room + 1) (chain nested) fun x => chain (nested' x) := by
  have ends : ∀ u, Stops 0 u → opensSuffix u = false ∧ Any u := by
    intro u stops
    obtain ⟨call, dot⟩ := stops.suffix (by decide)
    exact ⟨by rw [opensSuffix, call, dot]; rfl, True.intro⟩
  have suffixes := fun e => Mends.repeatWhile (fun x : ι => suffix (nested' x)) (repairs_suffix inner)
    ends (fun _ => False.elim) (fun _ => Tame.some_left) e
  exact (mends_primary inner).bind suffixes (fun _ _ => True.intro) (.inr fun _ _ => True.intro)
    (.inl True.intro) .inl

theorem prefixes_still (operators : List Token) (e : Expr) (c : Cursor) :
    ∃ e' i, operators.foldlM (fun right operator => node (.unary · operator right)) e c =
      .ok e' ⟨c.rest, i⟩ := by
  induction operators generalizing e c with
  | nil => exact ⟨e, c.nextId, rfl⟩
  | cons operator rest ih =>
    rw [List.foldlM_cons]
    exact ih _ ⟨c.rest, c.nextId + 1⟩

include inner in
theorem mends_unary : MendsExpr (room + 1) (unary nested) fun x => unary (nested' x) := by
  have operators : KindTest isPrefixOperator :=
    .ofKind (fun kind => kind == .symbol .bang || kind == .symbol .minus) rfl
  have other : ∀ t, isPrefixOperator t = true → t.isKeyword .varWord = false := by
    intro t here
    refine beq_false_of_ne fun word => ?_
    unfold isPrefixOperator Token.isSymbol at here
    rw [word] at here
    cases here
  have ends : ∀ u, IsNil u → isPrefixOperator u = false ∧ Any u := by
    intro u here
    exact ⟨by rw [isPrefixOperator, nil_other here, nil_other here]; rfl, True.intro⟩
  have taking : Mends (room + 1) Tame Tame False (OneOf Never IsNil) IsNil
      (many isPrefixOperator take) fun _ : ι => many isPrefixOperator take :=
    .many (fun _ => Tame.some_left) (.take (fun _ => tame_tail operators other) operators.goes)
      ends fun _ => False.elim
  have front := taking.widen (fun _ next => next.elim False.elim id) fun _ next => next
  have chains := (mends_chain inner).reindex (fun x : ι × List Token => x.1) fun _ => rfl
  refine front.upTo (fun before => chains.yield (fun e => ?_) (.inl True.intro)) (fun _ next => next)
    (.inr fun _ next => next)
  exact .still (fun c _ => prefixes_still before.reverse e c)
    (fun x t other j _ => prefixes_still x.1.2.reverse x.2 ⟨t :: other, j⟩) (fun _ _ => True.intro)
    fun _ _ => True.intro

theorem mends_leftToRight {tier : Tier} (accepts : KindTest tier.accepts)
    (other : ∀ t, tier.accepts t = true → t.isKeyword .varWord = false)
    (stops : ∀ t, Stops 0 t → tier.accepts t = false) {operand : Reader Expr}
    {operand' : ι → Reader Expr} (each : MendsExpr room operand operand') :
    MendsExpr room (leftToRight tier operand) fun x => leftToRight tier (operand' x) := by
  have step : ∀ left : Expr,
      Repairs room (fun rest => Tame rest ∧ tier.accepts (headOf rest) = true) Tame True Never
        (Stops 0)
        (do
          let operator ← take
          let right ← operand
          node (tier.build · left operator right))
        (fun x : ι × Expr => do
          let operator ← take
          let right ← operand' x.1
          node (tier.build · x.2 operator right)) := by
    intro left
    have right := each.reindex (fun x : ι × Expr => x.1) fun _ => rfl
    exact .take_bind (fun _ => tame_tail accepts other) accepts.goes (Nat.le_succ room)
      fun operator _ => (right.yield (fun _ => .node) (.inl True.intro)).loose
  have loops := Mends.repeatWhile
    (fun (x : ι) left => do
      let operator ← take
      let right ← operand' x
      node (tier.build · left operator right))
    step (fun u next => ⟨stops u next, next⟩) (fun _ => False.elim) fun _ => Tame.some_left
  exact each.bind loops (fun _ next => next.elim False.elim id) (.inr fun _ next => next)
    (.inl True.intro) .inl

theorem tiers_operators : ∀ tier ∈ tiers,
    KindTest tier.accepts ∧ (∀ t, tier.accepts t = true → t.isKeyword .varWord = false) ∧
      ∀ t, Stops 0 t → tier.accepts t = false := by
  intro tier member
  obtain ⟨i, there⟩ := List.mem_iff_getElem?.mp member
  have spelled := spelled_tiers i tier there
  refine ⟨tiers_kindly tier member, fun t accepted => beq_false_of_ne fun word => ?_,
    fun t stops => Bool.eq_false_iff.mpr fun accepted => ?_⟩
  · have tight := spelled.binds t accepted
    rw [word] at tight
    cases tight
  · exact absurd (stops.operator _ (spelled.binds t accepted)) (Nat.not_lt_zero _)

theorem mends_operatorsOver {operand : Reader Expr} {operand' : ι → Reader Expr}
    (each : MendsExpr room operand operand') :
    MendsExpr room (operatorsOver operand) fun x => operatorsOver (operand' x) := by
  have operators := tiers_operators
  unfold operatorsOver
  generalize tiers = remaining at operators
  induction remaining with
  | nil => exact each
  | cons tier rest ih =>
    rw [List.forall_mem_cons] at operators
    obtain ⟨⟨accepts, other, stops⟩, operators⟩ := operators
    exact mends_leftToRight accepts other stops (ih operators)

include inner in
theorem mends_assignment :
    MendsExpr (room + 1) (assignment nested) fun x => assignment (nested' x) := by
  have idle : ∀ (nested : Reader Expr) (target : Expr) (c : Cursor),
      c.current.isSymbol .equal = false → ∃ e i,
        (do
          let t ← current
          if t.isSymbol .equal then
            let _ ← take
            let value ← nested
            assigned t target value
          else return target : Reader Expr) c = .ok e ⟨c.rest, i⟩ := by
    intro nested target c plain
    refine ⟨target, c.nextId, ?_⟩
    rw [Carries.current_eq, if_neg (Bool.eq_false_iff.mp plain)]
    rfl
  refine (mends_operatorsOver (mends_unary inner)).yield (fun target => ?_) (.inl True.intro)
  exact .still (fun c tame => idle nested target c tame.head)
    (fun x t other j plain => idle (nested' x.1) x.2 ⟨t :: other, j⟩ plain) (fun _ => Tame.head)
    fun u stops => stops.equal rfl

end Expressions

def inside (x : {m // room + 1 ≤ m}) : {m // room ≤ m} := ⟨x.1 - 1, Nat.le_sub_of_add_le x.2⟩

theorem inside_succ (x : {m // room + 1 ≤ m}) : x.1 = (inside x).1 + 1 :=
  (Nat.sub_add_cancel (Nat.le_trans (Nat.le_add_left 1 room) x.2)).symm

theorem mends_expressionWithin {n : Nat} (enough : room ≤ n) :
    MendsExpr room (fun c => expressionWithin n c)
      fun (x : {m // room ≤ m}) c => expressionWithin x.1 c := by
  induction n generalizing room with
  | zero =>
    cases Nat.le_zero.mp enough
    exact .failing (fun _ => ⟨.nesting, rfl⟩) fun _ => Tame.some_left
  | succ n ih =>
    cases room with
    | zero =>
      exact ((mends_assignment (ih (Nat.zero_le n))).lower (Nat.zero_le 1)).roomless
    | succ room =>
      refine (mends_assignment (ih (Nat.le_of_succ_le_succ enough))).reindex inside fun x => ?_
      rw [inside_succ x]
      rfl

theorem mends_expression : MendsExpr room expression fun _ : ι => expression :=
  .limited expressionWithin (fun _ => expressionWithin) (· + 1) Nat.le_succ (fun _ => Tame.some_left)
    fun _ fits => (mends_expressionWithin fits).reindex (fun x => x.1) fun _ => rfl

def MendsPhrase {α γ : Type} (room : Nat) (r : Reader α) (r' : ι → Reader γ) : Prop :=
  Mends room Tame Tame True IsNil Any r r'

def MendsStmt (room : Nat) (r : Reader Stmt) (r' : ι → Reader Stmt) : Prop :=
  Mends room Tame Tame True IsNil NotElse r r'

theorem MendsPhrase.stmt {r : Reader Stmt} {r' : ι → Reader Stmt} (mends : MendsPhrase room r r') :
    MendsStmt room r r' :=
  mends.widen (fun _ next => next) fun _ _ => True.intro

theorem mends_expressionStatement :
    MendsPhrase room expressionStatement fun _ : ι => expressionStatement :=
  .upTo mends_expression (fun _ => mends_closed _ _)
    (fun _ ends => stops_of_symbol ends (.inr (.inr rfl))) (.inl True.intro)

theorem mends_printStatement : MendsPhrase room printStatement fun _ : ι => printStatement :=
  .upTo mends_expression (fun _ => mends_closed _ _)
    (fun _ ends => stops_of_symbol ends (.inr (.inr rfl))) (.inl True.intro)

theorem mends_optional {closing : Symbol}
    (closes : closing = .comma ∨ closing = .rightParen ∨ closing = .semicolon) :
    Mends room Tame Tame False (OneOf IsNil (·.isSymbol closing = true)) (·.isSymbol closing = true)
      (optionalBefore closing expression) fun _ : ι => optionalBefore closing expression :=
  .optionalBefore closing mends_expression (fun _ ends => stops_of_symbol ends closes)
    fun _ here => nil_other here

theorem mends_returnStatement {keyword : ι → Token} {t : Token} :
    Mends room Tame Tame True (OneOf IsNil (·.isSymbol .semicolon = true)) Any (returnStatement t)
      fun x => returnStatement (keyword x) :=
  .upTo (mends_optional (.inr (.inr rfl))) (fun _ => mends_closed _ _) (fun _ next => next)
    (.inr fun _ next => .inr next)

theorem mends_varDeclaration :
    Mends room Led Tame True (·.kind = .identifier) Any varDeclaration fun _ : ι => varDeclaration := by
  have name : Mends room Led Named True (·.kind = .identifier) Any (expectName .variable)
      fun _ : ι => expectName .variable :=
    .wanted ⟨.identifier, "a", 1⟩ rfl (fun _ => open_of_name) (fun _ => Led.some_left)
      fun _ _ => Led.named
  have closes : ∀ u : Token, u.isSymbol .semicolon = true → Stops 0 u :=
    fun _ ends => stops_of_symbol ends (.inr (.inr rfl))
  exact .follow name fun _ => .takeIf_bind (KindTest.symbol .equal)
    (fun _ _ (named : Named _) equals => named.value equals)
    (Mends.loose (.upTo (mends_expression.map (.inl True.intro)) (fun _ => mends_closed _ _) closes
      (.inl True.intro)))
    (.strengthen (mends_closed _ _) fun _ here => here.1.plain here.2)
    (fun u ends => u.other_symbol ends (by decide)) (.inl True.intro)

theorem mends_forInitializer : MendsPhrase room forInitializer fun _ : ι => forInitializer := by
  have clause : MendsPhrase room (some <$> expressionStatement)
      fun _ : ι => some <$> expressionStatement :=
    mends_expressionStatement.map (.inl True.intro)
  have declared : Mends room Led Tame True (·.kind = .identifier) Any (some <$> varDeclaration)
      fun _ : ι => some <$> varDeclaration := mends_varDeclaration.map (.inl True.intro)
  have other : ∀ u, IsNil u → u.isKeyword .varWord = false := by
    intro u here
    refine beq_false_of_ne fun word => ?_
    cases here.symm.trans word
  refine .takeIf_bind (KindTest.symbol .semicolon) (fun _ _ => Tame.symbol) .pure ?_
    (fun _ here => nil_other here) (.inl True.intro)
  exact .takeIf_bind (KindTest.word .varWord) (fun _ _ here => here.1.led) declared.loose
    (clause.strengthen fun _ here => here.1.1) other (.inl True.intro)

theorem still_forLoopOf (initializer : Option Stmt) (condition increment : Option Expr) (body : Stmt)
    (c : Cursor) : ∃ s i, forLoopOf initializer condition increment body c = .ok s ⟨c.rest, i⟩ := by
  cases initializer <;> cases condition <;> cases increment <;> exact ⟨_, _, rfl⟩

theorem not_else_of_symbol {t : Token} {s : Symbol} (here : t.isSymbol s = true) : NotElse t := by
  refine beq_false_of_ne fun word => ?_
  cases (eq_of_beq here).symm.trans word

section Nested

variable {declaration statement : Reader Stmt} {declaration' statement' : ι → Reader Stmt}
  (declarations : MendsStmt room declaration declaration')
  (statements : MendsStmt room statement statement')

theorem mends_body {α γ : Type} {begins may : Token → Prop} {item : Reader α} {item' : ι → Reader γ}
    (each : Mends room Tame Tame True begins may item item')
    (ends : ∀ u : Token, u.isSymbol .rightBrace = true → may u)
    (goes : ∀ u, begins u → inBody u = true ∧ may u) :
    Mends room Tame Tame False (OneOf begins (·.isSymbol .rightBrace = true))
      (·.isSymbol .rightBrace = true) (many inBody item) fun x => many inBody (item' x) := by
  refine .many (fun _ => Tame.some_left) (each.toRepairs.strengthen fun _ here => here.1)
    (fun u closes => ⟨?_, ends u closes⟩) goes
  rw [inBody, closes]
  rfl

theorem inBody_of_kind {t : Token} (brace : t.kind ≠ .symbol .rightBrace) (goes : t.kind ≠ .endOfInput) :
    inBody t = true := by
  rw [inBody, Token.isSymbol, Token.isEnding, beq_false_of_ne brace, beq_false_of_ne goes]
  rfl

theorem nil_goes {u : Token} (here : IsNil u) : inBody u = true ∧ NotElse u := by
  refine ⟨inBody_of_kind ?_ ?_, beq_false_of_ne ?_⟩
  all_goals
    intro kind
    cases here.symm.trans kind

include declarations in
theorem mends_block :
    Mends room Tame Tame True (OneOf IsNil (·.isSymbol .rightBrace = true)) Any (block declaration)
      fun x => block (declaration' x) := by
  have body := mends_body declarations (fun _ => not_else_of_symbol) fun _ => nil_goes
  exact body.upTo (fun _ => (mends_expect _ _).yield (fun _ => .pure) (.inl True.intro))
    (fun _ next => next) (.inr fun _ next => .inr next)

include declarations in
theorem mends_function (sort : FunctionSort) :
    Mends room Tame Tame True (·.kind = .identifier) Any (function declaration sort)
      fun x => function (declaration' x) sort := by
  have params : ∀ {κ : Type}, Mends room Tame Tame False
      (OneOf (·.kind = .identifier) (·.isSymbol .rightParen = true)) (·.isSymbol .rightParen = true)
      (separatedBefore .rightParen (expectName .parameter))
      fun _ : κ => separatedBefore .rightParen (expectName .parameter) := by
    refine .separatedBefore (fun _ => Tame.some_left) .rightParen (mends_expectName .parameter)
      (fun _ _ => Tame.symbol) (fun u closes => ⟨u.other_symbol closes (by decide), True.intro⟩) ?_
    intro u name
    refine beq_false_of_ne fun symbol => ?_
    cases name.symm.trans symbol
  have blocks := fun {κ : Type} (g : κ → ι) => (mends_block declarations).reindex g fun _ => rfl
  exact .follow (mends_expectName _) fun _ => .follow (mends_expect _ _) fun _ =>
    .upTo params
      (fun _ => .follow (mends_expect _ _) fun _ => .follow (mends_expect _ _) fun _ =>
        .yield (blocks _) (fun _ => .node) (.inl True.intro))
      (fun _ next => next) (.inr fun _ next => .inr next)

include declarations in
theorem mends_classBody {κ : Type} (g : κ → ι) {name : Token} {name' : κ → Token}
    {superclass : Option Variable} {superclass' : κ → Option Variable} :
    Mends room Tame Tame True (·.isSymbol .leftBrace = true) Any
      (do
        let _ ← expect .leftBrace .beforeClassBody
        let methods ← many inBody (function declaration .method)
        let _ ← expect .rightBrace .afterClassBody
        node (Stmt.classDecl · name superclass methods))
      (fun x : κ => do
        let _ ← expect .leftBrace .beforeClassBody
        let methods ← many inBody (function (declaration' (g x)) .method)
        let _ ← expect .rightBrace .afterClassBody
        node (Stmt.classDecl · (name' x) (superclass' x) methods)) := by
  have name_goes : ∀ u : Token, u.kind = .identifier → inBody u = true ∧ Any u := by
    refine fun u name => ⟨inBody_of_kind ?_ ?_, True.intro⟩
    all_goals
      intro kind
      cases name.symm.trans kind
  have methods := mends_body (mends_function declarations .method) (fun _ _ => True.intro) name_goes
  exact .follow (mends_expect _ _) fun _ => .upTo (methods.reindex _ fun _ => rfl)
    (fun _ => mends_closed _ _) (fun _ next => next) (.inr fun _ next => .inr next)

include declarations in
theorem mends_classDeclaration :
    Mends room Tame Tame True (·.kind = .identifier) Any (classDeclaration declaration)
      fun x => classDeclaration (declaration' x) :=
  .follow (mends_expectName _) fun _ => .takeIf_bind (KindTest.symbol .less)
    (fun _ _ => Tame.symbol)
    (Mends.loose (.follow (mends_expectName _) fun _ =>
      .upTo (.map .node (.inr fun _ next => next))
        (fun _ => mends_classBody declarations _) (fun _ _ => True.intro) (.inr fun _ _ => True.intro)))
    (.strengthen (mends_classBody declarations _) fun _ here => here.1)
    (fun u opens => u.other_symbol opens (by decide)) (.inl True.intro)

include statements in
theorem mends_forLoop :
    Mends room Tame Tame True (·.isSymbol .leftParen = true) NotElse (forLoop statement)
      fun x => forLoop (statement' x) :=
  .follow (mends_expect _ _) fun _ => .follow mends_forInitializer fun _ =>
    .upTo (mends_optional (.inr (.inr rfl)))
      (fun _ => .follow (mends_expect _ _) fun _ => .upTo (mends_optional (.inr (.inl rfl)))
        (fun _ => .follow (mends_expect _ _) fun _ => .yield (statements.reindex _ fun _ => rfl)
          (fun _ => .still (fun c _ => still_forLoopOf _ _ _ _ c)
            (fun _ _ _ _ _ => still_forLoopOf _ _ _ _ _) (fun _ _ => True.intro) fun _ _ => True.intro)
          (.inl True.intro))
        (fun _ next => next) (.inr fun _ next => .inr next))
      (fun _ next => next) (.inr fun _ next => .inr next)

include statements in
theorem mends_branch {κ : Type} (g : κ → ι) {condition : Expr} {condition' : κ → Expr} {yes : Stmt}
    {yes' : κ → Stmt} :
    Mends room Tame Tame False NotElse NotElse
      (do
        let no ← if ← acceptWord .elseWord then some <$> statement else pure none
        node (Stmt.branch · condition yes no))
      (fun x : κ => do
        let no ← if ← acceptWord .elseWord then some <$> statement' (g x) else pure none
        node (Stmt.branch · (condition' x) (yes' x) no)) := by
  have skipped : Mends room Tame Tame False NotElse NotElse (node (Stmt.branch · condition yes none))
      fun x : κ => node (Stmt.branch · (condition' x) (yes' x) none) := .node
  have no : Mends room Tame Tame True IsNil NotElse (some <$> statement)
      fun x => some <$> statement' (g x) :=
    (statements.reindex g fun _ => rfl).map (.inl True.intro)
  have word : KindTest (·.isKeyword .elseWord) := .word .elseWord
  refine .takeIf_bind word (fun t behind tame here => Tame.tail tame (word.goes t here) ?_)
    (Mends.loose (no.yield (fun _ => .node) (.inl True.intro)))
    (skipped.strengthen fun _ here => here.1) (fun _ next => next) (.inr fun _ next => next)
  refine beq_false_of_ne fun other => ?_
  cases (eq_of_beq here).symm.trans other

include statements in
theorem mends_conditional :
    Mends room Tame Tame True (·.isSymbol .leftParen = true) NotElse (conditional statement)
      fun x => conditional (statement' x) :=
  .follow (mends_expect _ _) fun _ => .upTo mends_expression
    (fun _ => .follow (mends_expect _ _) fun _ => .bind (statements.reindex _ fun _ => rfl)
      (fun _ => mends_branch statements _) (fun _ next => next) (.inr fun _ next => next)
      (.inl True.intro) .inl)
    (fun _ next => stops_of_symbol next (.inr (.inl rfl))) (.inl True.intro)

include statements in
theorem mends_whileLoop :
    Mends room Tame Tame True (·.isSymbol .leftParen = true) NotElse (whileLoop statement)
      fun x => whileLoop (statement' x) :=
  .follow (mends_expect _ _) fun _ => .upTo mends_expression
    (fun _ => .follow (mends_expect _ _) fun _ =>
      .yield (statements.reindex _ fun _ => rfl) (fun _ => .node) (.inl True.intro))
    (fun _ next => stops_of_symbol next (.inr (.inl rfl))) (.inl True.intro)

theorem repairs_phrase {takes : Prop} {starts begins may : Token → Prop} {r : Reader Stmt}
    {r' : ι → Reader Stmt} {t : Token} {f : ι → Token → Reader Stmt} (goes : t.isEnding = false)
    (other : t.isKeyword .varWord = false) (rest : Mends room Tame Tame takes begins may r r')
    (same : ∀ x, f x t = take >>= fun _ => r' x) (narrower : ∀ u, NotElse u → may u) :
    Repairs (room + 1) (fun rest => Tame rest ∧ headOf rest = t) Tame True starts NotElse
      (take >>= fun _ => r) fun x => current >>= f x :=
  repairs_taken goes other (rest.widen (fun _ next => next) narrower).loose same

theorem mends_default {r : Reader Stmt} {r' : ι → Reader Stmt} {f : Token → Reader Stmt}
    {f' : ι → Token → Reader Stmt} (rest : MendsStmt room r r')
    (nil : ∀ x u, IsNil u → f' x u = r' x)
    (each : ∀ t, (f t = r ∧ ∀ x, f' x t = r' x) ∨
      Repairs room (fun rest => Tame rest ∧ headOf rest = t) Tame True IsNil NotElse (f t)
        fun x => current >>= f' x) :
    MendsStmt room (current >>= f) fun x => current >>= f' x := by
  refine Mends.current_bind (fun t => ?_) fun some_room => ?_
  · rcases each t with ⟨same, same'⟩ | phrase
    · rw [same]
      refine .look ?_ (fun u here x => (nil x u here).trans (same' x).symm) (.inl True.intro)
      simp only [same']
      exact rest.toRepairs.strengthen fun _ here => here.1
    · exact phrase
  · refine Fills.look (t := nilToken) ?_ fun u here x => (nil x u here).trans (nil x nilToken rfl).symm
    have same : (f' · nilToken) = r' := funext fun x => nil x nilToken rfl
    rw [same]
    exact rest.fills some_room

include declarations statements in
theorem mends_statementOver :
    MendsStmt (room + 1) (statementOver declaration statement)
      fun x => statementOver (declaration' x) (statement' x) := by
  refine mends_default mends_expressionStatement.stmt ?_ fun t => ?_
  · rintro x ⟨_, lexeme, line⟩ ⟨⟩
    rfl
  · obtain ⟨kind, lexeme, line⟩ := t
    dsimp only
    split
    · exact .inr (repairs_phrase rfl rfl (mends_forLoop statements) (fun _ => rfl) fun _ next => next)
    · exact .inr (repairs_phrase rfl rfl (mends_conditional statements) (fun _ => rfl)
        fun _ next => next)
    · exact .inr (repairs_phrase rfl rfl mends_printStatement (fun _ => rfl) fun _ _ => True.intro)
    · exact .inr (repairs_phrase rfl rfl mends_returnStatement (fun _ => rfl) fun _ _ => True.intro)
    · exact .inr (repairs_phrase rfl rfl (mends_whileLoop statements) (fun _ => rfl) fun _ next => next)
    · exact .inr (repairs_phrase rfl rfl ((mends_block declarations).yield (fun _ => .node)
        (.inl True.intro)) (fun _ => rfl) fun _ _ => True.intro)
    · exact .inl ⟨rfl, fun _ => rfl⟩

include declarations statements in
theorem mends_declarationOver :
    MendsStmt (room + 1) (declarationOver declaration statement)
      fun x => declarationOver (declaration' x) (statement' x) := by
  refine mends_default (mends_statementOver declarations statements) ?_ fun t => ?_
  · rintro x ⟨_, lexeme, line⟩ ⟨⟩
    rfl
  · obtain ⟨kind, lexeme, line⟩ := t
    dsimp only
    split
    · exact .inr (repairs_phrase rfl rfl (mends_classDeclaration declarations) (fun _ => rfl)
        fun _ _ => True.intro)
    · exact .inr (repairs_phrase rfl rfl ((mends_function declarations .function).map (.inl True.intro))
        (fun _ => rfl) fun _ _ => True.intro)
    · exact .inr (repairs_behind rfl (fun _ tame => tame.led rfl)
        (Mends.loose (mends_varDeclaration.widen (fun _ next => next) fun _ _ => True.intro))
        fun _ => rfl)
    · exact .inl ⟨rfl, fun _ => rfl⟩

end Nested

theorem mends_within {n : Nat} (enough : room ≤ n) :
    (MendsStmt room (fun c => declarationWithin n c)
        fun (x : {m // room ≤ m}) c => declarationWithin x.1 c) ∧
      MendsStmt room (fun c => statementWithin n c)
        fun (x : {m // room ≤ m}) c => statementWithin x.1 c := by
  induction n generalizing room with
  | zero =>
    cases Nat.le_zero.mp enough
    exact ⟨.failing (fun _ => ⟨.nesting, rfl⟩) fun _ => Tame.some_left,
      .failing (fun _ => ⟨.nesting, rfl⟩) fun _ => Tame.some_left⟩
  | succ n ih =>
    cases room with
    | zero =>
      obtain ⟨declarations, statements⟩ := ih (Nat.zero_le n)
      exact ⟨((mends_declarationOver declarations statements).lower (Nat.zero_le 1)).roomless,
        ((mends_statementOver declarations statements).lower (Nat.zero_le 1)).roomless⟩
    | succ room =>
      obtain ⟨declarations, statements⟩ := ih (Nat.le_of_succ_le_succ enough)
      refine ⟨(mends_declarationOver declarations statements).reindex inside fun x => ?_,
        (mends_statementOver declarations statements).reindex inside fun x => ?_⟩
      all_goals
        rw [inside_succ x]
        rfl

theorem mends_declaration : MendsStmt room declaration fun _ : ι => declaration :=
  .limited declarationWithin (fun _ => declarationWithin) (· + 1) Nat.le_succ
    (fun _ => Tame.some_left) fun _ fits => (mends_within fits).1.reindex (fun x => x.1) fun _ => rfl

theorem mends_program :
    Mends room Tame Tame False (OneOf IsNil (·.isEnding = true)) (·.isEnding = true) program
      fun _ : ι => program := by
  refine .many (fun _ => Tame.some_left) (mends_declaration.toRepairs.strengthen fun _ here => here.1)
    (fun u ends => ⟨?_, ?_⟩) fun u here => ⟨?_, (nil_goes here).2⟩
  · rw [ends]
    rfl
  · exact (KindTest.word .elseWord).ending u ends
  · have goes : u.isEnding = false := by
      refine beq_false_of_ne fun kind => ?_
      cases here.symm.trans kind
    rw [goes]
    rfl

theorem open_of_front {tokens front behind : List Token} {t closing : Token} (opens : Open tokens)
    (split : tokens ++ [closing] = front ++ t :: behind) : Open front := by
  have lasts := congrArg List.dropLast split
  rw [List.dropLast_concat, List.dropLast_append_of_ne_nil (List.cons_ne_nil t behind)] at lasts
  exact fun u member => opens u (lasts ▸ List.mem_append_left _ member)

/-- An error stands at the first token that is impossible behind the tokens before it. -/
theorem impossible_of_error {i : NodeId} {tokens : List Token} {closing : Token} {e : SyntaxError}
    {stop : Cursor} (opens : Open tokens) (closes : closing.isEnding = true)
    (only : OnlyInitializers (tokens ++ [closing]))
    (fails : parse i (tokens ++ [closing]) = (.error e, stop)) :
    ∃ front t behind, tokens ++ [closing] = front ++ t :: behind ∧ stop.rest = t :: behind ∧
      (∃ expected, e = .unexpected expected t) ∧
      (∃ middle, Open (front ++ middle) ∧ ∀ j ending, ending.isEnding = true →
        ∃ body, (parse j (front ++ middle ++ [ending])).1 = .ok body) ∧
      (t.isEnding = false → ∀ j later body, (parse j (front ++ t :: later)).1 ≠ .ok body) := by
  have read : program ⟨tokens ++ [closing], i⟩ = .error e stop := by
    unfold parse at fails
    cases read : program ⟨tokens ++ [closing], i⟩ with
    | ok body c =>
      rw [read] at fails
      cases fails
    | error e' c =>
      rw [read] at fails
      cases fails
      rfl
  have mends := @mends_program Unit (tokens ++ [closing]).length
  obtain ⟨front, split, some_left, stuck⟩ :=
    mends.stops _ e stop (tame_of_initializers closes opens only) read
  obtain ⟨t, behind, left⟩ := List.exists_cons_of_ne_nil some_left
  have here : stop.current = t := congrArg headOf left
  have whole : tokens ++ [closing] = front ++ t :: behind := left ▸ split
  have short : front.length < (tokens ++ [closing]).length := by
    rw [whole, List.length_append, List.length_cons]
    omega
  obtain ⟨points, ⟨next, more, opens_more, -, passes⟩, hopeless⟩ := stuck short
  refine ⟨front, t, behind, whole, left, here ▸ points, ⟨next :: more, ?_, ?_⟩, ?_⟩
  · exact (open_of_front opens whole).append opens_more
  · intro j ending ended
    obtain ⟨body, j', accepted⟩ := passes () j ending [] ended
    exact ⟨body, parse_ok.mpr ⟨_, accepted⟩⟩
  · intro goes j later body accepted
    obtain ⟨c, accepted⟩ := parse_ok.mp accepted
    obtain ⟨e', c', rejected⟩ := hopeless (here ▸ goes) () j later
    rw [here, List.append_assoc] at rejected
    cases rejected.symm.trans accepted

def unclosedTokens : List Token :=
  [⟨.keyword .varWord, "var", 1⟩, ⟨.identifier, "a", 1⟩, ⟨.symbol .equal, "=", 1⟩,
    ⟨.symbol .leftParen, "(", 1⟩, ⟨.keyword .thisWord, "this", 1⟩, ⟨.symbol .semicolon, ";", 1⟩]

theorem initializers_of_unclosed : OnlyInitializers (unclosedTokens ++ [.ending 1]) := by
  intro before sign behind split equals
  match before, split with
  | [], split | [_], split | [_, _, _], split | [_, _, _, _], split | [_, _, _, _, _], split
  | [_, _, _, _, _, _], split =>
    cases split
    cases equals
  | [_, _], split =>
    cases split
    exact ⟨[], _, _, rfl, rfl, rfl⟩
  | _ :: _ :: _ :: _ :: _ :: _ :: _ :: before, split => cases before <;> cases split

theorem impossible_of_unclosed :
    Open unclosedTokens ∧ (Token.ending 1).isEnding = true ∧
      OnlyInitializers (unclosedTokens ++ [.ending 1]) ∧
      ∃ e stop, parse 0 (unclosedTokens ++ [.ending 1]) = (.error e, stop) ∧
        ∃ front t behind, unclosedTokens ++ [.ending 1] = front ++ t :: behind ∧
          stop.rest = t :: behind ∧ (∃ expected, e = .unexpected expected t) ∧
          (∃ middle, Open (front ++ middle) ∧ ∀ j ending, ending.isEnding = true →
            ∃ body, (parse j (front ++ middle ++ [ending])).1 = .ok body) ∧
          (t.isEnding = false → ∀ j later body, (parse j (front ++ t :: later)).1 ≠ .ok body) := by
  have opens : Open unclosedTokens := by
    unfold Open
    decide
  exact ⟨opens, rfl, initializers_of_unclosed, _, _, rfl,
    impossible_of_error opens rfl initializers_of_unclosed rfl⟩

end Grammar

end LoxMachine
