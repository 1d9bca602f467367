import LoxMachine.Proofs.Program.Shaped
import LoxMachine.Proofs.Program.Bare
import LoxMachine.Proofs.Form.Number

namespace LoxMachine

def Kind.Legible : Kind → Prop
  | .number n => n.Spellable
  | .string s => '"' ∉ s.toList
  | .symbol _ | .keyword _ | .identifier | .endOfInput => True

def Nameable (text : String) : Prop :=
  Keyword.ofSpelling? text = none ∧ (Piece.word text.toList).Lexical

structure Token.Legible (t : Token) : Prop where
  kind : t.kind.Legible
  spelled : t.Spelled
  name : t.kind = .identifier → Nameable t.lexeme

theorem Piece.lexical_of_firstOf {n : Nat} {cs : List Char} {piece : Piece}
    (member : piece ∈ firstOf n cs) (sound : piece.isFaulty = false) : piece.Lexical := by
  induction n generalizing cs with
  | zero => cases member
  | succ n ih =>
    cases cs with
    | nil => cases member
    | cons c cs =>
      rcases List.mem_cons.mp member with rfl | later
      · exact lexical_read c cs sound
      · exact ih later

theorem Scan.piece_of_words {line : Nat} {pieces : List Piece} {t : Token}
    (member : t ∈ words line pieces) : ∃ piece ∈ pieces, ∃ line, piece.reading line = .token t := by
  induction pieces generalizing line with
  | nil => cases member
  | cons piece rest ih =>
    rcases List.mem_append.mp member with here | later
    · refine ⟨piece, List.mem_cons_self, line, ?_⟩
      unfold wordOf at here
      split at here
      · rename_i found
        rw [found, List.mem_singleton.mp here]
      · cases here
      · cases here
    · obtain ⟨other, there, found⟩ := ih later
      exact ⟨other, List.mem_cons_of_mem _ there, found⟩

theorem legible_reading {line : Nat} {piece : Piece} {t : Token} (lexical : piece.Lexical)
    (read : piece.reading line = .token t) : t.Legible := by
  have spelled := spelled_reading line piece t read
  cases piece with
  | number whole fraction =>
    cases read
    exact ⟨Number.spellable_ofDigits _ _, spelled, nofun⟩
  | string contents =>
    cases read
    refine ⟨?_, spelled, nofun⟩
    change '"' ∉ (String.ofList contents).toList
    rw [String.toList_ofList]
    exact lexical
  | word letters =>
    cases read
    have sort : (Kind.ofWord (String.ofList letters)).Legible := by
      unfold Kind.ofWord
      split <;> exact True.intro
    refine ⟨sort, spelled, fun name => ⟨?_, ?_⟩⟩
    · change Kind.ofWord (String.ofList letters) = .identifier at name
      unfold Kind.ofWord at name
      split at name
      · cases name
      · rename_i unreserved
        exact unreserved
    · change (Piece.word (String.ofList letters).toList).Lexical
      rw [String.toList_ofList]
      exact lexical
  | symbol s =>
    cases read
    exact ⟨True.intro, spelled, nofun⟩
  | unclosedString | stray | comment | newline | blanks => cases read

theorem legible_ending (line : Nat) : (Token.ending line).Legible := by
  refine ⟨True.intro, ?_, nofun⟩
  intro text settled
  cases settled
  rfl

theorem legible_of_tokenize {source : String} {tokens : List Token}
    (scanned : tokenize source = .ok tokens) : ∀ t ∈ tokens, t.Legible := by
  obtain ⟨sound, rfl⟩ := tokenize_eq_ok.mp scanned
  intro t member
  rcases List.mem_append.mp member with word | last
  · obtain ⟨piece, there, line, read⟩ := Scan.piece_of_words word
    exact legible_reading (Piece.lexical_of_firstOf there (sound piece there)) read
  · rw [List.mem_singleton.mp last]
    exact legible_ending _

def Word.Legible : Word → Prop
  | kept t => t.Legible
  | plain k => k.Legible

theorem legible_of_spells {words : List Word} {tokens : List Token} (spells : Spells Eq words tokens)
    (legible : ∀ t ∈ tokens, t.Legible) : ∀ w ∈ words, w.Legible := by
  induction spells with
  | nil => exact nofun
  | @cons w t words tokens first rest ih =>
    obtain ⟨here, later⟩ := List.forall_mem_cons.mp legible
    refine List.forall_mem_cons.mpr ⟨?_, ih later⟩
    cases w with
    | kept u =>
      have same : u = t := first
      rw [same]
      exact here
    | plain k =>
      have same : t.kind = k := first
      rw [← same]
      exact here.kind

def Token.Is (k : Kind) (t : Token) : Prop := t.kind = k ∧ t.Legible

def Token.Named (t : Token) : Prop := t.Is .identifier

theorem Token.Is.bare {t : Token} {k : Kind} (here : t.Is k) {text : String}
    (settled : k.spelling = some text) : t.lexeme = text ∧ t.bare = ⟨k, text, 0⟩ := by
  obtain ⟨rfl, legible⟩ := here
  have same : t.lexeme = text := legible.spelled text settled
  refine ⟨same, ?_⟩
  rw [Token.bare, same]

def prefixSymbols : List Symbol := [.bang, .minus]

def infixSymbols : List Symbol :=
  [.bangEqual, .equalEqual, .greater, .greaterEqual, .less, .lessEqual, .plus, .minus, .star, .slash]

def infixWords : List Keyword := [.andWord, .orWord]

mutual

/-- An expression whose tokens are legible and of kinds that fit their places. -/
def Expr.Legible : Expr → Prop
  | .literal _ value => value.kind.Legible
  | .read use => use.name.Named
  | .assign _ name value => name.Named ∧ value.Legible
  | .unary _ operator right => (∃ s ∈ prefixSymbols, operator.Is (.symbol s)) ∧ right.Legible
  | .binary _ left operator right =>
    (∃ s ∈ infixSymbols, operator.Is (.symbol s)) ∧ left.Legible ∧ right.Legible
  | .logical _ left operator right =>
    (∃ k ∈ infixWords, operator.Is (.keyword k)) ∧ left.Legible ∧ right.Legible
  | .grouping _ inner => inner.Legible
  | .call _ callee paren arguments =>
    callee.Legible ∧ paren.Is (.symbol .rightParen) ∧ ExprsLegible arguments
  | .get _ object name => object.Legible ∧ name.Named
  | .set _ object name value => object.Legible ∧ name.Named ∧ value.Legible
  | .this _ keyword => keyword.Is (.keyword .thisWord)
  | .super _ keyword method => keyword.Is (.keyword .superWord) ∧ method.Named

def ExprsLegible : List Expr → Prop
  | [] => True
  | e :: rest => e.Legible ∧ ExprsLegible rest

end

theorem infixSymbol_of_precedence {k : Kind} {p : Nat} (tight : precedence k = some p) (least : 3 ≤ p) :
    ∃ s ∈ infixSymbols, k = .symbol s := by
  unfold precedence at tight
  split at tight <;> cases tight
  · omega
  · omega
  all_goals exact ⟨_, by decide, rfl⟩

theorem infixWord_of_precedence {k : Kind} {p : Nat} (tight : precedence k = some p) (most : p ≤ 2) :
    ∃ word ∈ infixWords, k = .keyword word := by
  unfold precedence at tight
  split at tight <;> cases tight
  · exact ⟨_, by decide, rfl⟩
  · exact ⟨_, by decide, rfl⟩
  all_goals omega

mutual

/-- An expression of the grammar is legible if the words are of which it is made. -/
theorem legible_of_words (e : Expr) (shaped : e.Shaped) (words : ∀ w ∈ e.words, w.Legible) :
    e.Legible := by
  match e with
  | .literal _ value => exact words _ List.mem_cons_self
  | .read use => exact ⟨shaped, words _ List.mem_cons_self⟩
  | .assign _ name value =>
    simp only [Expr.words, List.forall_mem_cons] at words
    exact ⟨⟨shaped.1, words.1⟩, legible_of_words value shaped.2 words.2.2⟩
  | .unary _ operator right =>
    simp only [Expr.words, List.forall_mem_cons] at words
    refine ⟨?_, legible_of_words right shaped.2.2 words.2⟩
    rcases shaped.1 with bang | minus
    · exact ⟨_, by decide, bang, words.1⟩
    · exact ⟨_, by decide, minus, words.1⟩
  | .binary _ left operator right =>
    simp only [Expr.words, List.forall_mem_append, List.forall_mem_cons] at words
    obtain ⟨⟨p, tight, least, -⟩, one, other⟩ := shaped
    obtain ⟨s, member, kind⟩ := infixSymbol_of_precedence tight least
    exact ⟨⟨s, member, kind, words.2.1⟩, legible_of_words left one words.1,
      legible_of_words right other words.2.2⟩
  | .logical _ left operator right =>
    simp only [Expr.words, List.forall_mem_append, List.forall_mem_cons] at words
    obtain ⟨⟨p, tight, -, most, -⟩, one, other⟩ := shaped
    obtain ⟨k, member, kind⟩ := infixWord_of_precedence tight most
    exact ⟨⟨k, member, kind, words.2.1⟩, legible_of_words left one words.1,
      legible_of_words right other words.2.2⟩
  | .grouping _ inner =>
    simp only [Expr.words, List.forall_mem_append, List.forall_mem_cons] at words
    exact legible_of_words inner shaped words.2.1
  | .call _ callee paren arguments =>
    simp only [Expr.words, List.forall_mem_append, List.forall_mem_cons] at words
    obtain ⟨-, one, kind, others⟩ := shaped
    refine ⟨legible_of_words callee one words.1, ⟨kind, words.2.2.2.1⟩,
      legible_of_listed arguments others fun e member w here => words.2.2.1 w ?_⟩
    exact (sublist_listed (by rw [exprsWords_eq]; exact List.mem_map_of_mem member)).subset here
  | .get _ object name =>
    simp only [Expr.words, List.forall_mem_append, List.forall_mem_cons] at words
    exact ⟨legible_of_words object shaped.2.1 words.1, shaped.2.2, words.2.2.1⟩
  | .set _ object name value =>
    simp only [Expr.words, List.forall_mem_append, List.forall_mem_cons] at words
    exact ⟨legible_of_words object shaped.2.1 words.1, ⟨shaped.2.2.1, words.2.2.1⟩,
      legible_of_words value shaped.2.2.2 words.2.2.2.2⟩
  | .this _ keyword => exact ⟨shaped, words _ List.mem_cons_self⟩
  | .super _ keyword method =>
    simp only [Expr.words, List.forall_mem_cons] at words
    exact ⟨⟨shaped.1, words.1⟩, shaped.2, words.2.2.1⟩

theorem legible_of_listed (es : List Expr) (shaped : ExprsShaped es)
    (words : ∀ e ∈ es, ∀ w ∈ e.words, w.Legible) : ExprsLegible es := by
  match es with
  | [] => exact True.intro
  | e :: rest =>
    obtain ⟨here, later⟩ := List.forall_mem_cons.mp words
    exact ⟨legible_of_words e shaped.1 here, legible_of_listed rest shaped.2 later⟩

end

def OptionalLegible (value : Option Expr) : Prop := ∀ e ∈ value, e.Legible

mutual

def Stmt.Legible : Stmt → Prop
  | .expression _ e | .print _ e => e.Legible
  | .var _ name initializer => name.Named ∧ OptionalLegible initializer
  | .block _ body => StmtsLegible body
  | .branch _ condition yes none => condition.Legible ∧ yes.Legible
  | .branch _ condition yes (some no) => condition.Legible ∧ yes.Legible ∧ no.Legible
  | .loop _ condition body => condition.Legible ∧ body.Legible
  | .function decl => decl.Legible
  | .returns _ keyword value =>
    keyword.Is (.keyword .returnWord) ∧ OptionalLegible value
  | .classDecl _ name superclass methods =>
    name.Named ∧ (∀ use ∈ superclass, use.name.Named) ∧ MethodsLegible methods

def StmtsLegible : List Stmt → Prop
  | [] => True
  | s :: rest => s.Legible ∧ StmtsLegible rest

def FunctionDecl.Legible : FunctionDecl → Prop
  | .mk _ name params body => name.Named ∧ (∀ p ∈ params, p.Named) ∧ StmtsLegible body

def MethodsLegible : List FunctionDecl → Prop
  | [] => True
  | m :: rest => m.Legible ∧ MethodsLegible rest

end

theorem stmtsLegible_iff {body : List Stmt} : StmtsLegible body ↔ ∀ s ∈ body, s.Legible := by
  induction body with
  | nil => simp [StmtsLegible]
  | cons s rest ih => rw [StmtsLegible, List.forall_mem_cons, ih]

theorem methodsLegible_iff {methods : List FunctionDecl} :
    MethodsLegible methods ↔ ∀ m ∈ methods, m.Legible := by
  induction methods with
  | nil => simp [MethodsLegible]
  | cons m rest ih => rw [MethodsLegible, List.forall_mem_cons, ih]

end LoxMachine
