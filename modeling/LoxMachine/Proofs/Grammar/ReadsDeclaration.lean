import LoxMachine.Proofs.Grammar.ReadsTerm

namespace LoxMachine

def Kind.opens (k : Kind) : Bool :=
  k.leads || [Kind.keyword .printWord, .keyword .varWord, .symbol .leftBrace, .keyword .ifWord,
    .keyword .whileWord, .keyword .funWord, .keyword .returnWord, .keyword .classWord].contains k

theorem Kind.opens_of_leads {k : Kind} (leads : k.leads = true) : k.opens = true :=
  Bool.or_eq_true_iff.mpr (.inl leads)

def Kind.declares (k : Kind) : Bool :=
  k == .keyword .classWord || k == .keyword .funWord || k == .keyword .varWord

theorem Kind.declares_of_leads {k : Kind} (leads : k.leads = true) : k.declares = false := by
  cases k with
  | keyword word =>
    cases word with
    | classWord | funWord | varWord => cases leads
    | _ => rfl
  | symbol | identifier | string | number | endOfInput => rfl

theorem Stmt.words_head (s : Stmt) (shaped : s.Shaped) :
    ∃ w rest, s.words = w :: rest ∧ w.kind.opens = true ∧ (s.Plain → w.kind.declares = false) := by
  cases s with
  | expression id e =>
    obtain ⟨w, rest, words, leads, _⟩ := e.words_head shaped
    exact ⟨w, _, begins_append words _, Kind.opens_of_leads leads,
      fun _ => Kind.declares_of_leads leads⟩
  | branch id condition yes no =>
    cases no with
    | none => exact ⟨_, _, rfl, rfl, fun _ => rfl⟩
    | some no => exact ⟨_, _, rfl, rfl, fun _ => rfl⟩
  | returns id keyword value =>
    refine ⟨_, _, rfl, ?_⟩
    rw [Word.kind, shaped.1]
    exact ⟨rfl, fun _ => rfl⟩
  | print | block | loop => exact ⟨_, _, rfl, rfl, fun _ => rfl⟩
  | var | function | classDecl => exact ⟨_, _, rfl, rfl, False.elim⟩

namespace Grammar

open Reader Reads

def NotElse (t : Token) : Prop := t.isKeyword .elseWord = false

theorem not_else_of_opens {t : Token} (opens : t.kind.opens = true) : NotElse t := by
  refine beq_false_of_ne fun word => ?_
  rw [word] at opens
  cases opens

def inBody (t : Token) : Bool := !t.isSymbol .rightBrace && !t.isEnding

theorem inBody_of_opens {t : Token} (opens : t.kind.opens = true) : inBody t = true := by
  have brace : t.isSymbol .rightBrace = false := by
    refine beq_false_of_ne fun brace => ?_
    rw [brace] at opens
    cases opens
  have ending : t.isEnding = false := by
    refine beq_false_of_ne fun ending => ?_
    rw [ending] at opens
    cases opens
  unfold inBody
  rw [brace, ending]
  rfl

def ReadsStmt (r : Reader Stmt) (s : Stmt) : Prop :=
  ∀ tokens, Spells Token.Alike s.words tokens → Reads r tokens (Closed s) fun s' => s'.bare = s.bare

def CoversAll (r : Reader Stmt) (bound : Nat) : Prop :=
  ∀ s : Stmt, s.Shaped → s.words.length < bound → ReadsStmt r s

def CoversPlain (r : Reader Stmt) (bound : Nat) : Prop :=
  ∀ s : Stmt, s.Shaped → s.Plain → s.words.length < bound → ReadsStmt r s

theorem reads_expressionStatement {id : NodeId} {e : Expr} (shaped : e.Shaped) :
    ReadsStmt expressionStatement (.expression id e) := by
  intro tokens spells
  obtain ⟨front, _, rfl, before, spells⟩ := spells.split
  obtain ⟨semicolon, _, rfl, ends, none⟩ := spells.uncons
  cases none
  refine (reads_expression shaped front before).upTo (stops_of_closing ends (.inr (.inr rfl))) ?_
  intro e' same
  refine first (Reads.expect ends) (Reads.node fun i => ?_)
  exact congrArg (Stmt.expression 0) same

theorem reads_printStatement {id : NodeId} {e : Expr} (shaped : e.Shaped) {tokens : List Token}
    (spells : Spells Token.Alike (e.words ++ [.plain (.symbol .semicolon)]) tokens) :
    Reads printStatement tokens Any fun s => s.bare = (Stmt.print id e).bare := by
  obtain ⟨front, _, rfl, before, spells⟩ := spells.split
  obtain ⟨semicolon, _, rfl, ends, none⟩ := spells.uncons
  cases none
  refine (reads_expression shaped front before).upTo (stops_of_closing ends (.inr (.inr rfl))) ?_
  intro e' same
  refine first (Reads.expect ends) (Reads.node fun i => ?_)
  exact congrArg (Stmt.print 0) same

theorem reads_optionalBefore {closing : Symbol} (closes : closing = .rightParen ∨ closing = .semicolon)
    {value : Option Expr} (shaped : OptionalShaped value) {tokens : List Token}
    (spells : Spells Token.Alike (valueWords value) tokens) :
    Reads (Reader.optionalBefore closing expression) tokens (·.kind = .symbol closing)
      fun value' => value'.map Expr.bare = value.map Expr.bare := by
  cases value with
  | none =>
    cases spells
    refine peek fun t closed => ?_
    rw [if_pos (Token.is_symbol closed)]
    exact Reads.pure rfl
  | some e =>
    obtain ⟨w, words, begins, leads, _⟩ := e.words_head shaped
    have spelled : Spells Token.Alike e.words tokens := spells
    rw [begins] at spelled
    obtain ⟨t, rest, rfl, matched, _⟩ := spelled.uncons
    have other : t.isSymbol closing = false := by
      refine beq_false_of_ne fun closed => ?_
      rw [← matched.kind, closed] at leads
      rcases closes with rfl | rfl <;> cases leads
    refine current_bind ?_
    rw [if_neg (Bool.eq_false_iff.mp other)]
    refine (reads_expression shaped _ spells).andThen
      (fun u closed => stops_of_closing closed (.inr closes)) fun e' same => Reads.pure ?_
    exact congrArg some same

theorem reads_returnStatement {id : NodeId} {keyword t : Token} {value : Option Expr}
    (alike : keyword.Alike t) (shaped : OptionalShaped value) {tokens : List Token}
    (spells : Spells Token.Alike (valueWords value ++ [.plain (.symbol .semicolon)]) tokens) :
    Reads (returnStatement t) tokens Any fun s => s.bare = (Stmt.returns id keyword value).bare := by
  obtain ⟨front, _, rfl, before, spells⟩ := spells.split
  obtain ⟨semicolon, _, rfl, ends, none⟩ := spells.uncons
  cases none
  refine (reads_optionalBefore (.inr rfl) shaped before).upTo ends fun value' same => ?_
  refine first (Reads.expect ends) (Reads.node fun i => ?_)
  change Stmt.returns 0 t.bare (value'.map Expr.bare) =
    Stmt.returns 0 keyword.bare (value.map Expr.bare)
  rw [same, show t.bare = keyword.bare from alike]

theorem reads_variable {id : NodeId} {name t semicolon : Token} {initializer value : Option Expr}
    (alike : name.Alike t) (same : value.map Expr.bare = initializer.map Expr.bare)
    (ends : semicolon.kind = .symbol .semicolon) :
    Reads (do let _ ← expect .semicolon .afterVariable; node (Stmt.var · t value)) [semicolon] Any
      fun s => s.bare = (Stmt.var id name initializer).bare := by
  refine first (Reads.expect ends) (Reads.node fun i => ?_)
  change Stmt.var 0 t.bare (value.map Expr.bare) = Stmt.var 0 name.bare (initializer.map Expr.bare)
  rw [same, show t.bare = name.bare from alike]

theorem reads_varDeclaration {id : NodeId} {name : Token} {initializer : Option Expr}
    (kind : name.kind = .identifier) (shaped : OptionalShaped initializer) {tokens : List Token}
    (spells : Spells Token.Alike
      (.kept name :: (initializerWords initializer ++ [.plain (.symbol .semicolon)])) tokens) :
    Reads varDeclaration tokens Any fun s => s.bare = (Stmt.var id name initializer).bare := by
  obtain ⟨t, _, rfl, alike, spells⟩ := spells.uncons
  obtain ⟨front, _, rfl, before, spells⟩ := spells.split
  obtain ⟨semicolon, _, rfl, ends, none⟩ := spells.uncons
  cases none
  refine first (Reads.expectName (Token.Alike.kind alike |>.trans kind)) ?_
  cases initializer with
  | none =>
    cases before
    refine takeIf_no (fun other _ => Token.not_symbol ends (by decide)) ?_
    exact reads_variable alike rfl ends
  | some e =>
    obtain ⟨equal, rest, rfl, sign, before⟩ := before.uncons
    have sign : equal.kind = .symbol .equal := sign
    refine takeIf_yes (KindTest.symbol .equal) (Token.is_symbol sign) ?_
    have value : Reads (some <$> expression) rest (Stops 0)
        fun value => value.map Expr.bare = (some e).map Expr.bare :=
      Reads.map ((reads_expression shaped rest before).mono fun e' same => congrArg some same)
    exact value.upTo (stops_of_closing ends (.inr (.inr rfl))) fun value same =>
      reads_variable alike same ends

section Nested

variable {declaration statement : Reader Stmt} {bound : Nat}
  (declarations : CoversAll declaration bound) (statements : CoversPlain statement bound)

theorem length_le_stmts {body : List Stmt} {s : Stmt} (member : s ∈ body) :
    s.words.length ≤ (stmtsWords body).length := by
  rw [stmtsWords_eq]
  have within := List.sublist_flatten_of_mem (List.mem_map_of_mem (f := Stmt.words) member)
  exact within.length_le

theorem length_le_methods {methods : List FunctionDecl} {m : FunctionDecl} (member : m ∈ methods) :
    m.words.length ≤ (methodsWords methods).length := by
  rw [methodsWords_eq]
  have within := List.sublist_flatten_of_mem (List.mem_map_of_mem (f := FunctionDecl.words) member)
  exact within.length_le

theorem item_declaration {s : Stmt} (shaped : s.Shaped) (reads : ReadsStmt declaration s)
    {test : Token → Bool} (goes : ∀ t : Token, t.kind.opens = true → test t = true) :
    Item test declaration Stmt.words Stmt.bare Token.Alike NotElse s := by
  intro tokens spells
  have read := reads tokens spells
  obtain ⟨w, words, begins, opens, _⟩ := s.words_head shaped
  rw [begins] at spells
  obtain ⟨t, rest, rfl, matched, _⟩ := spells.uncons
  rw [← matched.kind] at opens
  exact ⟨⟨t, rest, rfl, goes t opens, not_else_of_opens opens⟩, read.strengthen fun _ other _ => other⟩

theorem stops_of_brace (t : Token) (brace : t.kind = .symbol .rightBrace) :
    inBody t = false ∧ NotElse t := by
  obtain ⟨_, lexeme, line⟩ := t
  cases brace
  exact ⟨rfl, rfl⟩

include declarations in
theorem reads_block {body : List Stmt} (shaped : StmtsShaped body)
    (short : (stmtsWords body).length < bound) {tokens : List Token}
    (spells : Spells Token.Alike (stmtsWords body ++ [.plain (.symbol .rightBrace)]) tokens) :
    Reads (block declaration) tokens Any fun body' => body'.map Stmt.bare = body.map Stmt.bare := by
  obtain ⟨front, _, rfl, before, spells⟩ := spells.split
  obtain ⟨brace, _, rfl, ends, none⟩ := spells.uncons
  cases none
  rw [stmtsWords_eq] at before
  have each : ∀ s ∈ body, Item inBody declaration Stmt.words Stmt.bare Token.Alike NotElse s := by
    intro s member
    have fewer := Nat.lt_of_le_of_lt (length_le_stmts member) short
    have fine := stmtsShaped_iff.mp shaped s member
    exact item_declaration fine (declarations s fine fewer) fun t => inBody_of_opens
  refine (many stops_of_brace each before).upTo ends fun body' same => ?_
  exact first (Reads.expect ends) (Reads.pure same)

theorem reads_parameters {params : List Token} (kinds : ∀ p ∈ params, p.kind = .identifier)
    {tokens : List Token}
    (spells : Spells Token.Alike (listed (params.map fun p => [.kept p])) tokens) :
    Reads (Reader.separatedBefore .rightParen (expectName .parameter)) tokens
      (·.kind = .symbol .rightParen)
      fun params' => params'.map Token.bare = params.map Token.bare := by
  refine Reads.separatedBefore (by decide) (fun p member tokens spells => ?_)
    (fun p member tokens spells => ?_) spells
  · obtain ⟨t, _, rfl, alike, none⟩ := spells.uncons
    cases none
    refine (Reads.expectName ((Token.Alike.kind alike).trans (kinds p member))).mono ?_
    rintro _ rfl
    exact alike
  · obtain ⟨t, rest, rfl, alike, _⟩ := spells.uncons
    refine ⟨t, rest, rfl, beq_false_of_ne fun paren => ?_⟩
    have kind := (Token.Alike.kind alike).trans (kinds p member)
    rw [paren] at kind
    cases kind

include declarations in
theorem reads_function (sort : FunctionSort) {decl : FunctionDecl} (shaped : decl.Shaped)
    (short : decl.words.length < bound) {tokens : List Token}
    (spells : Spells Token.Alike decl.words tokens) :
    Reads (function declaration sort) tokens Any fun decl' => decl'.bare = decl.bare := by
  obtain ⟨_, name, params, body⟩ := decl
  obtain ⟨kind, kinds, fine⟩ := shaped
  have fewer : (stmtsWords body).length < bound := by
    simp only [FunctionDecl.words, List.length_append, List.length_cons] at short
    omega
  obtain ⟨t, _, rfl, alike, spells⟩ := spells.uncons
  obtain ⟨heading, _, rfl, before, spells⟩ := spells.split
  obtain ⟨brace, rest, rfl, begins, inside⟩ := spells.uncons
  obtain ⟨opening, _, rfl, left, before⟩ := before.uncons
  obtain ⟨listing, _, rfl, items, ends⟩ := before.split
  obtain ⟨closing, _, rfl, right, none⟩ := ends.uncons
  cases none
  refine first (Reads.expectName ((Token.Alike.kind alike).trans kind)) ?_
  refine first (Reads.expect left) ?_
  change Reads _ ((listing ++ [closing]) ++ brace :: rest) _ _
  rw [List.append_assoc]
  refine (reads_parameters kinds items).upTo right fun params' same => ?_
  refine first (Reads.expect right) (first (Reads.expect begins) ?_)
  refine (reads_block declarations fine fewer inside).andThen (fun _ => id) fun body' same' => ?_
  refine Reads.node fun i => ?_
  change FunctionDecl.mk 0 t.bare (params'.map Token.bare) (stmtsBare body') =
    FunctionDecl.mk 0 name.bare (params.map Token.bare) (stmtsBare body)
  rw [same, stmtsBare_eq, stmtsBare_eq, same', show t.bare = name.bare from alike]

include declarations in
theorem reads_classBody {id : NodeId} {name t : Token} {superclass heritage : Option Variable}
    {methods : List FunctionDecl} (alike : name.Alike t)
    (same : heritage.map Variable.bare = superclass.map Variable.bare)
    (shaped : MethodsShaped methods) (short : (methodsWords methods).length < bound)
    {tokens : List Token}
    (spells : Spells Token.Alike (.plain (.symbol .leftBrace) ::
      (methodsWords methods ++ [.plain (.symbol .rightBrace)])) tokens) :
    Reads
      (do
        let _ ← expect .leftBrace .beforeClassBody
        let methods ← Reader.many (fun t => !t.isSymbol .rightBrace && !t.isEnding)
          (function declaration .method)
        let _ ← expect .rightBrace .afterClassBody
        node (Stmt.classDecl · t heritage methods)) tokens Any
      fun s => s.bare = (Stmt.classDecl id name superclass methods).bare := by
  obtain ⟨opening, _, rfl, begins, spells⟩ := spells.uncons
  obtain ⟨front, _, rfl, before, spells⟩ := spells.split
  obtain ⟨brace, _, rfl, ends, none⟩ := spells.uncons
  cases none
  rw [methodsWords_eq] at before
  have each : ∀ m ∈ methods, Item inBody (function declaration .method) FunctionDecl.words
      FunctionDecl.bare Token.Alike NotElse m := by
    intro m member tokens spells
    have fine := methodsShaped_iff.mp shaped m member
    have fewer := Nat.lt_of_le_of_lt (length_le_methods member) short
    have reads := reads_function declarations .method fine fewer spells
    obtain ⟨i, called, params, body⟩ := m
    obtain ⟨u, rest, rfl, matched, _⟩ := spells.uncons
    have kind : u.kind = .identifier := (Token.Alike.kind matched).trans fine.1
    have opens : u.kind.opens = true := by
      rw [kind]
      rfl
    exact ⟨⟨u, rest, rfl, inBody_of_opens opens, not_else_of_opens opens⟩,
      reads.strengthen fun _ _ => True.intro⟩
  refine first (Reads.expect begins) ?_
  refine (many stops_of_brace each before).upTo ends fun methods' same' => ?_
  refine first (Reads.expect ends) (Reads.node fun i => ?_)
  change Stmt.classDecl 0 t.bare (heritage.map Variable.bare) (methodsBare methods') =
    Stmt.classDecl 0 name.bare (superclass.map Variable.bare) (methodsBare methods)
  rw [same, methodsBare_eq, methodsBare_eq, same', show t.bare = name.bare from alike]

include declarations in
theorem reads_classDeclaration {id : NodeId} {name : Token} {superclass : Option Variable}
    {methods : List FunctionDecl} (kind : name.kind = .identifier)
    (inherits : HeritageShaped superclass) (shaped : MethodsShaped methods)
    (short : (methodsWords methods).length < bound) {tokens : List Token}
    (spells : Spells Token.Alike (.kept name :: (heritageWords superclass ++
      .plain (.symbol .leftBrace) :: (methodsWords methods ++ [.plain (.symbol .rightBrace)])))
      tokens) :
    Reads (classDeclaration declaration) tokens Any
      fun s => s.bare = (Stmt.classDecl id name superclass methods).bare := by
  obtain ⟨t, _, rfl, alike, spells⟩ := spells.uncons
  obtain ⟨front, rest, rfl, before, after⟩ := spells.split
  refine first (Reads.expectName ((Token.Alike.kind alike).trans kind)) ?_
  cases superclass with
  | none =>
    cases before
    have less : ∀ other, Any (headOf other) → (headOf (rest ++ other)).isSymbol .less = false := by
      obtain ⟨opening, others, rfl, begins, _⟩ := after.uncons
      exact fun _ _ => Token.not_symbol begins (by decide)
    exact takeIf_no less (reads_classBody declarations alike rfl shaped short after)
  | some use =>
    obtain ⟨less, _, rfl, sign, before⟩ := before.uncons
    obtain ⟨superName, _, rfl, alike', none⟩ := before.uncons
    cases none
    refine takeIf_yes (KindTest.symbol .less) (Token.is_symbol sign) ?_
    refine first (Reads.expectName ((Token.Alike.kind alike').trans inherits)) ?_
    have heritage : Reads (some <$> node (Variable.mk · superName)) [] Any
        fun heritage => heritage.map Variable.bare = (some use).map Variable.bare :=
      Reads.map (Reads.node fun i => congrArg (fun name => some (Variable.mk 0 name)) alike')
    exact heritage.bind (fun heritage same =>
      reads_classBody declarations alike same shaped short after) fun _ _ => True.intro

include statements in
theorem reads_whileLoop {id : NodeId} {condition : Expr} {body : Stmt} (tested : condition.Shaped)
    (shaped : body.Shaped) (plain : body.Plain) (short : body.words.length < bound)
    {tokens : List Token}
    (spells : Spells Token.Alike (.plain (.symbol .leftParen) ::
      (condition.words ++ .plain (.symbol .rightParen) :: body.words)) tokens) :
    Reads (whileLoop statement) tokens (Closed body)
      fun s => s.bare = (Stmt.loop id condition body).bare := by
  obtain ⟨opening, _, rfl, left, spells⟩ := spells.uncons
  obtain ⟨front, _, rfl, before, spells⟩ := spells.split
  obtain ⟨closing, rest, rfl, right, after⟩ := spells.uncons
  refine first (Reads.expect left) ?_
  refine (reads_expression tested front before).upTo (stops_of_closing right (.inr (.inl rfl))) ?_
  intro condition' same
  refine first (Reads.expect right) ?_
  refine (statements body shaped plain short rest after).andThen (fun _ closed => closed) ?_
  intro body' same'
  refine Reads.node fun i => ?_
  change Stmt.loop 0 condition'.bare body'.bare = Stmt.loop 0 condition.bare body.bare
  rw [same, same']

include statements in
theorem reads_conditional {id : NodeId} {condition : Expr} {yes : Stmt} (tested : condition.Shaped)
    (shaped : yes.Shaped) (plain : yes.Plain) (short : yes.words.length < bound)
    {tokens : List Token}
    (spells : Spells Token.Alike (.plain (.symbol .leftParen) ::
      (condition.words ++ .plain (.symbol .rightParen) :: yes.words)) tokens) :
    Reads (conditional statement) tokens NotElse
      fun s => s.bare = (Stmt.branch id condition yes none).bare := by
  obtain ⟨opening, _, rfl, left, spells⟩ := spells.uncons
  obtain ⟨front, _, rfl, before, spells⟩ := spells.split
  obtain ⟨closing, rest, rfl, right, after⟩ := spells.uncons
  refine first (Reads.expect left) ?_
  refine (reads_expression tested front before).upTo (stops_of_closing right (.inr (.inl rfl))) ?_
  intro condition' same
  refine first (Reads.expect right) ?_
  refine (statements yes shaped plain short rest after).andThen (fun _ other _ => other) ?_
  intro yes' same'
  have alone : Reads (node (Stmt.branch · condition' yes' none)) [] NotElse
      fun s => s.bare = (Stmt.branch id condition yes none).bare := by
    refine Reads.node fun i => ?_
    change Stmt.branch 0 condition'.bare yes'.bare none = Stmt.branch 0 condition.bare yes.bare none
    rw [same, same']
  exact takeIf_no (fun _ other => other) alone

include statements in
theorem reads_alternatives {id : NodeId} {condition : Expr} {yes no : Stmt}
    (tested : condition.Shaped) (shaped : yes.Shaped) (plain : yes.Plain) (ended : ¬ yes.EndsOpen)
    (shaped' : no.Shaped) (plain' : no.Plain) (short : yes.words.length < bound)
    (short' : no.words.length < bound) {tokens : List Token}
    (spells : Spells Token.Alike (.plain (.symbol .leftParen) ::
      (condition.words ++ .plain (.symbol .rightParen) ::
        (yes.words ++ .plain (.keyword .elseWord) :: no.words))) tokens) :
    Reads (conditional statement) tokens (Closed no)
      fun s => s.bare = (Stmt.branch id condition yes (some no)).bare := by
  obtain ⟨opening, _, rfl, left, spells⟩ := spells.uncons
  obtain ⟨front, _, rfl, before, spells⟩ := spells.split
  obtain ⟨closing, _, rfl, right, spells⟩ := spells.uncons
  obtain ⟨chosen, _, rfl, first_branch, spells⟩ := spells.split
  obtain ⟨separator, rest, rfl, word, after⟩ := spells.uncons
  have other : separator.isKeyword .elseWord = true := beq_iff_eq.mpr word
  refine first (Reads.expect left) ?_
  refine (reads_expression tested front before).upTo (stops_of_closing right (.inr (.inl rfl))) ?_
  intro condition' same
  refine first (Reads.expect right) ?_
  refine (statements yes shaped plain short chosen first_branch).upTo (fun ends => absurd ends ended) ?_
  intro yes' same'
  refine takeIf_yes (KindTest.word .elseWord) other ?_
  have branch : Reads (some <$> statement) rest (Closed no)
      fun no' => no'.map Stmt.bare = some no.bare :=
    Reads.map ((statements no shaped' plain' short' rest after).mono fun s same => congrArg some same)
  refine branch.andThen (fun _ closed => closed) fun no' same'' => ?_
  obtain ⟨s, rfl, bare⟩ := Option.map_eq_some_iff.mp same''
  refine Reads.node fun i => ?_
  change Stmt.branch 0 condition'.bare yes'.bare (some s.bare) =
    Stmt.branch 0 condition.bare yes.bare (some no.bare)
  rw [same, same', bare]

theorem reads_taken {t : Token} {k : Kind} {tokens : List Token} {may : Token → Prop} {r : Reader Stmt}
    {good : Stmt → Prop} (kind : t.kind = k) (inside : (k == .endOfInput) = false)
    (rest : Reads r tokens may good) : Reads (do let _ ← take; r) (t :: tokens) may good :=
  first (Reads.take (Token.open_of_kind kind inside)) rest

theorem statementOver_eq {c : Cursor} (leads : c.current.kind.leads = true) :
    statementOver declaration statement c = expressionStatement c := by
  unfold statementOver
  rw [Carries.current_eq]
  cases kind : c.current.kind with
  | keyword word =>
    rw [kind] at leads
    cases word with
    | forWord | ifWord | printWord | returnWord | whileWord => cases leads
    | _ => rfl
  | symbol s =>
    rw [kind] at leads
    cases s with
    | leftBrace => cases leads
    | _ => rfl
  | identifier | string | number | endOfInput => rfl

theorem declarationOver_eq {c : Cursor} (plain : c.current.kind.declares = false) :
    declarationOver declaration statement c = statementOver declaration statement c := by
  unfold declarationOver
  rw [Carries.current_eq]
  cases kind : c.current.kind with
  | keyword word =>
    rw [kind] at plain
    cases word with
    | classWord | funWord | varWord => cases plain
    | _ => rfl
  | symbol | identifier | string | number | endOfInput => rfl

include declarations statements in
theorem covers_statementOver : CoversPlain (statementOver declaration statement) (bound + 1) := by
  intro s shaped plain short tokens spells
  cases s with
  | expression id e =>
    have reads := @reads_expressionStatement id e shaped tokens spells
    obtain ⟨w, words, begins, leads, _⟩ := e.words_head shaped
    rw [Stmt.words, begins_append begins] at spells
    obtain ⟨t, rest, rfl, matched, _⟩ := spells.uncons
    rw [← matched.kind] at leads
    intro i other next
    have same := @statementOver_eq declaration statement ⟨t :: rest ++ other, i⟩ leads
    rw [same]
    exact reads i other next
  | print id e =>
    obtain ⟨t, rest, rfl, word, spells⟩ := spells.uncons
    have kind : t.kind = .keyword .printWord := word
    refine current_bind ?_
    rw [kind]
    exact reads_taken kind rfl ((reads_printStatement shaped spells).strengthen fun _ _ => True.intro)
  | block id body =>
    obtain ⟨t, rest, rfl, brace, spells⟩ := spells.uncons
    have kind : t.kind = .symbol .leftBrace := brace
    have fewer : (stmtsWords body).length < bound := by
      simp only [Stmt.words, List.length_append, List.length_cons] at short
      omega
    refine current_bind ?_
    rw [kind]
    refine reads_taken kind rfl ?_
    refine (reads_block declarations shaped fewer spells).andThen (fun _ _ => True.intro) ?_
    intro body' same
    refine Reads.node fun i => ?_
    change Stmt.block 0 (stmtsBare body') = Stmt.block 0 (stmtsBare body)
    rw [stmtsBare_eq, stmtsBare_eq, same]
  | branch id condition yes no =>
    cases no with
    | none =>
      obtain ⟨t, rest, rfl, word, spells⟩ := spells.uncons
      have kind : t.kind = .keyword .ifWord := word
      obtain ⟨tested, fine, single⟩ := shaped
      simp only [Stmt.words, List.length_append, List.length_cons] at short
      refine current_bind ?_
      rw [kind]
      refine reads_taken kind rfl ?_
      refine (reads_conditional statements tested fine single (by omega) spells).strengthen ?_
      exact fun _ closed => closed True.intro
    | some no =>
      obtain ⟨t, rest, rfl, word, spells⟩ := spells.uncons
      have kind : t.kind = .keyword .ifWord := word
      obtain ⟨tested, ⟨fine, single, ended⟩, fine', single'⟩ := shaped
      simp only [Stmt.words, List.length_append, List.length_cons] at short
      refine current_bind ?_
      rw [kind]
      refine reads_taken kind rfl ?_
      exact reads_alternatives statements tested fine single ended fine' single' (by omega) (by omega)
        spells
  | loop id condition body =>
    obtain ⟨t, rest, rfl, word, spells⟩ := spells.uncons
    have kind : t.kind = .keyword .whileWord := word
    obtain ⟨tested, fine, single⟩ := shaped
    simp only [Stmt.words, List.length_append, List.length_cons] at short
    refine current_bind ?_
    rw [kind]
    exact reads_taken kind rfl (reads_whileLoop statements tested fine single (by omega) spells)
  | returns id keyword value =>
    obtain ⟨t, rest, rfl, alike, spells⟩ := spells.uncons
    have kind : t.kind = .keyword .returnWord := (Token.Alike.kind alike).trans shaped.1
    refine current_bind ?_
    rw [kind]
    refine reads_taken kind rfl ?_
    exact (reads_returnStatement alike shaped.2 spells).strengthen fun _ _ => True.intro
  | var | function | classDecl => exact plain.elim

include declarations statements in
theorem covers_declarationOver : CoversAll (declarationOver declaration statement) (bound + 1) := by
  intro s shaped short tokens spells
  have read_plain : s.Plain → Reads (declarationOver declaration statement) tokens (Closed s)
      fun s' => s'.bare = s.bare := by
    intro plain
    have reads := covers_statementOver declarations statements s shaped plain short tokens spells
    obtain ⟨w, words, begins, _, declares⟩ := s.words_head shaped
    rw [begins] at spells
    obtain ⟨t, rest, rfl, matched, _⟩ := spells.uncons
    have other_kind := declares plain
    rw [← matched.kind] at other_kind
    intro i other next
    have same := @declarationOver_eq declaration statement ⟨t :: rest ++ other, i⟩ other_kind
    rw [same]
    exact reads i other next
  cases s with
  | var id name initializer =>
    obtain ⟨t, rest, rfl, word, spells⟩ := spells.uncons
    have kind : t.kind = .keyword .varWord := word
    refine current_bind ?_
    rw [kind]
    refine reads_taken kind rfl ?_
    exact (reads_varDeclaration shaped.1 shaped.2 spells).strengthen fun _ _ => True.intro
  | function decl =>
    obtain ⟨t, rest, rfl, word, spells⟩ := spells.uncons
    have kind : t.kind = .keyword .funWord := word
    have fewer : decl.words.length < bound := by
      simp only [Stmt.words, List.length_cons] at short
      omega
    refine current_bind ?_
    rw [kind]
    refine reads_taken kind rfl (Reads.map ?_)
    refine ((reads_function declarations .function shaped fewer spells).mono ?_).strengthen ?_
    · exact fun decl' same => congrArg Stmt.function same
    · exact fun _ _ => True.intro
  | classDecl id name superclass methods =>
    obtain ⟨t, rest, rfl, word, spells⟩ := spells.uncons
    have kind : t.kind = .keyword .classWord := word
    obtain ⟨named, inherits, fine⟩ := shaped
    have fewer : (methodsWords methods).length < bound := by
      simp only [Stmt.words, List.length_append, List.length_cons] at short
      omega
    refine current_bind ?_
    rw [kind]
    refine reads_taken kind rfl ?_
    exact (reads_classDeclaration declarations named inherits fine fewer spells).strengthen
      fun _ _ => True.intro
  | expression | print | block | branch | loop | returns => exact read_plain True.intro

end Nested

theorem covers_within (n : Nat) :
    CoversAll (fun c => declarationWithin n c) n ∧ CoversPlain (fun c => statementWithin n c) n := by
  induction n with
  | zero =>
    exact ⟨fun s _ short => absurd short (Nat.not_lt_zero _),
      fun s _ _ short => absurd short (Nat.not_lt_zero _)⟩
  | succ n ih => exact ⟨covers_declarationOver ih.1 ih.2, covers_statementOver ih.1 ih.2⟩

theorem reads_declaration {s : Stmt} (shaped : s.Shaped) : ReadsStmt declaration s := by
  intro tokens spells i other next
  have enough : s.words.length < (tokens ++ other).length + 1 := by
    rw [spells.length_eq, List.length_append]
    omega
  exact (covers_within _).1 s shaped enough tokens spells i other next

/-- Statements of the shape of the grammar, written as tokens with any lines and closed by the token
for the end, are read back but for the numbers of the nodes and the lines of the tokens. -/
theorem parse_of_spells {body : List Stmt} (shaped : StmtsShaped body) {tokens : List Token}
    (spells : Spells Token.Alike (stmtsWords body) tokens) {closing : Token}
    (last : closing.isEnding = true) (i : NodeId) :
    ∃ body' stop, parse i (tokens ++ [closing]) = (.ok body', stop) ∧ stop.rest = [closing] ∧
      stmtsBare body' = stmtsBare body := by
  rw [stmtsWords_eq] at spells
  have each : ∀ s ∈ body, Item (!·.isEnding) declaration Stmt.words Stmt.bare Token.Alike NotElse s := by
    intro s member
    have fine := stmtsShaped_iff.mp shaped s member
    refine item_declaration fine (reads_declaration fine) fun t opens => ?_
    have inside := inBody_of_opens opens
    exact (Bool.and_eq_true_iff.mp inside).2
  have stops : ∀ t : Token, t.isEnding = true → (!t.isEnding) = false ∧ NotElse t := by
    intro t ending
    exact ⟨by rw [ending]; rfl, not_else_of_ending ending⟩
  obtain ⟨body', j, read, same⟩ := many stops each spells i [closing] last
  refine ⟨body', ⟨[closing], j⟩, ?_, rfl, ?_⟩
  · exact parse_eq_ok.mpr (program_eq_ok.mp read)
  · rw [stmtsBare_eq, stmtsBare_eq, same]

def branchProgram : List Stmt :=
  let a : Expr := .read ⟨0, ⟨.identifier, "a", 1⟩⟩
  let paren : Token := ⟨.symbol .rightParen, ")", 1⟩
  [.branch 0 a (.block 0 []) (some (.expression 0 (.unary 0 ⟨.symbol .minus, "-", 1⟩
    (.call 0 (.get 0 a ⟨.identifier, "b", 1⟩) paren [.literal 0 (.string "c")]))))]

theorem parse_of_branch :
    StmtsShaped branchProgram ∧
      ∃ body' stop, parse 0
          ((stmtsWords branchProgram).map (·.write (.ending 1)) ++ [.ending 1]) = (.ok body', stop) ∧
        stop.rest = [.ending 1] ∧ stmtsBare body' = stmtsBare branchProgram :=
  have shaped : StmtsShaped branchProgram := by
    simp [branchProgram, StmtsShaped, Stmt.Shaped, Stmt.Plain, Stmt.EndsOpen, Expr.Shaped, ExprsShaped,
      Expr.level]
  ⟨shaped, parse_of_spells shaped (.write _ _) rfl 0⟩

end Grammar

end LoxMachine
