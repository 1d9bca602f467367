import LoxMachine.Proofs.Token.Joined
import Mathlib.Data.List.TakeWhile

namespace LoxMachine

namespace Piece

/-- The lexical rules: what a number, a string, a word, a symbol, a comment, a newline and a run of
blanks may consist of. Faulty pieces are none of these. -/
def Lexical : Piece → Prop
  | number whole fraction =>
    whole ≠ [] ∧ (∀ c ∈ whole, isDigit c = true) ∧ ∀ c ∈ fraction, isDigit c = true
  | string contents => '"' ∉ contents
  | word [] => False
  | word (first :: others) => isWordStart first = true ∧ ∀ c ∈ others, isWordPart c = true
  | symbol _ => True
  | comment text => '\n' ∉ text
  | newline => True
  | blanks text => text ≠ [] ∧ ∀ c ∈ text, isBlank c = true
  | unclosedString _ | stray _ => False

/-- The piece to be taken from the front of a text: the longest one that the rules allow. If they
allow none, it is all that is left of a string without an end, or a single character. -/
def Taken (rest : List Char) (piece : Piece) : Prop :=
  (piece.Lexical ∧ piece.text <+: rest ∧
      ∀ other : Piece, other.Lexical → other.text <+: rest → other.text.length ≤ piece.text.length) ∨
    ((∀ other : Piece, other.Lexical → ¬ other.text <+: rest) ∧
      if rest.head? = some '"' then
        (∃ contents, piece = unclosedString contents) ∧ piece.text = rest
      else ∃ c, piece = stray c ∧ rest.head? = some c)

theorem all_takeWhile {p : Char → Bool} {cs : List Char} : ∀ c ∈ cs.takeWhile p, p c = true :=
  fun _ member => List.mem_takeWhile_imp member

theorem lexical_readNumber {c : Char} (cs : List Char) (digit : isDigit c = true) :
    (readNumber (c :: cs)).1.Lexical := by
  have whole : (c :: cs).takeWhile isDigit ≠ [] := by
    rw [List.takeWhile_cons, if_pos digit]
    exact List.cons_ne_nil _ _
  unfold readNumber
  split
  · split
    · exact ⟨whole, all_takeWhile, fun _ absent => nomatch absent⟩
    · exact ⟨whole, all_takeWhile, all_takeWhile⟩
  · exact ⟨whole, all_takeWhile, fun _ absent => nomatch absent⟩

/-- What is read at the front of `c :: cs`, by the first character. -/
theorem read_cases (c : Char) (cs : List Char) :
    (isDigit c = true ∧ read c cs = readNumber (c :: cs)) ∨
    (c = '"' ∧ read c cs = readString cs) ∨
    (isWordStart c = true ∧
      read c cs = (word (c :: cs.takeWhile isWordPart), cs.dropWhile isWordPart)) ∨
    (c = '\n' ∧ read c cs = (newline, cs)) ∨
    (isBlank c = true ∧ read c cs = (blanks (c :: cs.takeWhile isBlank), cs.dropWhile isBlank)) ∨
    (c = '/' ∧ read c cs =
      (comment (cs.tail.takeWhile (· != '\n')), cs.tail.dropWhile (· != '\n'))) ∨
    (∃ s rest, readSymbol (c :: cs) = some (s, rest) ∧ read c cs = (symbol s, rest)) ∨
    (c ≠ '"' ∧ readSymbol (c :: cs) = none ∧ read c cs = (stray c, cs)) := by
  unfold read
  split
  · rename_i digit
    exact .inl ⟨digit, rfl⟩
  · split
    · rename_i quote
      exact .inr (.inl ⟨eq_of_beq quote, rfl⟩)
    · rename_i quote
      split
      · rename_i start
        exact .inr (.inr (.inl ⟨start, rfl⟩))
      · split
        · rename_i newline
          exact .inr (.inr (.inr (.inl ⟨eq_of_beq newline, rfl⟩)))
        · split
          · rename_i blank
            exact .inr (.inr (.inr (.inr (.inl ⟨blank, rfl⟩))))
          · split
            · rename_i comment
              have first := eq_of_beq (Bool.and_eq_true_iff.mp comment).1
              exact .inr (.inr (.inr (.inr (.inr (.inl ⟨first, rfl⟩)))))
            · refine .inr (.inr (.inr (.inr (.inr (.inr ?_)))))
              cases found : readSymbol (c :: cs) with
              | some entry => exact .inl ⟨entry.1, entry.2, rfl, rfl⟩
              | none => exact .inr ⟨fun same => quote (beq_iff_eq.mpr same), rfl, rfl⟩

theorem lexical_read (c : Char) (cs : List Char) (sound : (read c cs).1.isFaulty = false) :
    (read c cs).1.Lexical := by
  rcases read_cases c cs with ⟨digit, same⟩ | ⟨-, same⟩ | ⟨start, same⟩ | ⟨-, same⟩ | ⟨blank, same⟩ |
    ⟨-, same⟩ | ⟨s, rest, -, same⟩ | ⟨-, -, same⟩ <;> rw [same] at sound ⊢
  · exact lexical_readNumber cs digit
  · unfold readString at sound ⊢
    split
    · exact fun member => absurd (List.mem_takeWhile_imp member) (by decide)
    · rename_i left
      rw [left] at sound
      cases sound
  · exact ⟨start, all_takeWhile⟩
  · exact True.intro
  · exact ⟨List.cons_ne_nil _ _, List.forall_mem_cons.mpr ⟨blank, all_takeWhile⟩⟩
  · exact fun member => absurd (List.mem_takeWhile_imp member) (by decide)
  · exact True.intro
  · cases sound

theorem sound_readNumber (cs : List Char) : (readNumber cs).1.isFaulty = false := by
  unfold readNumber
  split
  · split <;> rfl
  · rfl

theorem singleSymbol_of_readSymbol {c : Char} {cs : List Char} (none_read : readSymbol (c :: cs) = none) :
    singleSymbol c = none := by
  by_cases pair : cs.head? = some '='
  · cases cs with
    | nil => cases pair
    | cons d ds =>
      cases pair
      rw [readSymbol_pair, Option.or_eq_none_iff, Option.map_eq_none_iff,
        Option.map_eq_none_iff] at none_read
      exact none_read.2
  · rw [readSymbol_single c pair, Option.map_eq_none_iff] at none_read
    exact none_read

/-- Where a faulty piece is read: a string without an end goes to the end of the text, anything else
is one character that no symbol begins with. -/
theorem faulty_read {c : Char} {cs : List Char} (faulty : (read c cs).1.isFaulty = true) :
    (c = '"' ∧ '"' ∉ cs ∧ read c cs = (unclosedString cs, [])) ∨
      (c ≠ '"' ∧ singleSymbol c = none ∧ read c cs = (stray c, cs)) := by
  rcases read_cases c cs with ⟨-, same⟩ | ⟨quote, same⟩ | ⟨-, same⟩ | ⟨-, same⟩ | ⟨-, same⟩ |
    ⟨-, same⟩ | ⟨s, rest, -, same⟩ | ⟨other, unread, same⟩ <;> rw [same] at faulty ⊢
  · rw [sound_readNumber] at faulty
    cases faulty
  · unfold readString at faulty ⊢
    cases left : cs.dropWhile (· != '"') with
    | cons d ds =>
      rw [left] at faulty
      cases faulty
    | nil =>
      have all := List.dropWhile_eq_nil_iff.mp left
      refine .inl ⟨quote, fun member => absurd (all _ member) (by decide), ?_⟩
      rw [List.takeWhile_eq_self_iff.mpr all]
  · cases faulty
  · cases faulty
  · cases faulty
  · cases faulty
  · cases faulty
  · exact .inr ⟨other, singleSymbol_of_readSymbol unread, rfl⟩

theorem length_le_takeWhile {p : Char → Bool} {front cs : List Char} (front_of : front <+: cs)
    (all : ∀ c ∈ front, p c = true) : front.length ≤ (cs.takeWhile p).length := by
  obtain ⟨rest, rfl⟩ := front_of
  rw [List.takeWhile_append_of_pos all, List.length_append]
  exact Nat.le_add_right _ _

theorem takeWhile_run {p : Char → Bool} {stop : Char} (stops : p stop = false) {run : List Char}
    (all : ∀ c ∈ run, p c = true) (rest : List Char) :
    (run ++ stop :: rest).takeWhile p = run ∧ (run ++ stop :: rest).dropWhile p = stop :: rest := by
  rw [takeWhile_stop stops, dropWhile_stop stops, List.takeWhile_eq_self_iff.mpr all,
    List.dropWhile_eq_nil_iff.mpr all]
  exact ⟨rfl, rfl⟩

theorem takeWhile_front {p : Char → Bool} {run rest : List Char} (all : ∀ c ∈ run, p c = true)
    (ends : ∀ c ∈ rest.head?, p c = false) :
    (run ++ rest).takeWhile p = run ∧ (run ++ rest).dropWhile p = rest := by
  cases rest with
  | nil =>
    rw [List.append_nil, List.takeWhile_eq_self_iff.mpr all, List.dropWhile_eq_nil_iff.mpr all]
    exact ⟨rfl, rfl⟩
  | cons c cs => exact takeWhile_run (ends c rfl) all cs

theorem not_digit_of_wordStart {c : Char} (start : isWordStart c = true) : isDigit c = false := by
  cases c with
  | mk value valid =>
    simp only [isWordStart, isDigit, Bool.or_eq_true, Bool.and_eq_true, decide_eq_true_eq,
      beq_iff_eq, Bool.and_eq_false_iff, decide_eq_false_iff_not, Char.le_def, Char.ext_iff,
      UInt32.le_iff_toNat_le, ← UInt32.toNat_inj] at start ⊢
    change ((65 ≤ _ ∧ _ ≤ 90) ∨ (97 ≤ _ ∧ _ ≤ 122)) ∨ _ = 95 at start
    change ¬ 48 ≤ _ ∨ ¬ _ ≤ 57
    omega

theorem longest_number {c : Char} {cs whole fraction : List Char}
    (lexical : (number whole fraction).Lexical) (front : (number whole fraction).text <+: c :: cs) :
    isDigit c = true ∧
      (number whole fraction).text.length ≤ (readNumber (c :: cs)).1.text.length := by
  obtain ⟨nonempty, digits, decimals⟩ := lexical
  have whole_front : whole <+: c :: cs := by
    cases fraction with
    | nil => exact front
    | cons d ds => exact (List.prefix_append _ _).trans front
  have digit : isDigit c = true := by
    cases whole with
    | nil => exact absurd rfl nonempty
    | cons d ds =>
      rw [← (List.cons_prefix_cons.mp whole_front).1]
      exact digits d List.mem_cons_self
  refine ⟨digit, ?_⟩
  cases fraction with
  | nil =>
    have bound := length_le_takeWhile whole_front digits
    refine bound.trans ?_
    unfold readNumber
    split
    · split
      · exact Nat.le_refl _
      · simp only [text, List.length_append]
        exact Nat.le_add_right _ _
    · exact Nat.le_refl _
  | cons d ds =>
    obtain ⟨rest, text⟩ := front
    rw [Piece.text, List.append_assoc, List.cons_append] at text
    · obtain ⟨run, after⟩ := takeWhile_run (by decide : isDigit '.' = false) digits (d :: ds ++ rest)
      have bound := length_le_takeWhile (List.prefix_append (d :: ds) rest) decimals
      unfold readNumber
      rw [← text, run, after]
      cases more : (d :: ds ++ rest).takeWhile isDigit with
      | nil =>
        rw [more] at bound
        cases bound
      | cons e es =>
        rw [more] at bound
        simp only [more]
        change (whole ++ '.' :: d :: ds).length ≤ (whole ++ '.' :: e :: es).length
        rw [List.length_append, List.length_append, List.length_cons, List.length_cons]
        exact Nat.add_le_add_left (Nat.succ_le_succ bound) _
    · exact List.cons_ne_nil _ _

theorem read_of_digit {c : Char} (cs : List Char) (digit : isDigit c = true) :
    read c cs = readNumber (c :: cs) := if_pos digit

theorem read_of_wordStart {c : Char} (cs : List Char) (start : isWordStart c = true) :
    read c cs = (word (c :: cs.takeWhile isWordPart), cs.dropWhile isWordPart) := by
  have digit := not_digit_of_wordStart start
  have quote : (c == '"') = false := by
    rw [beq_eq_false_iff_ne]
    rintro rfl
    exact absurd start (by decide)
  simp only [read, digit, quote, start, if_true, Bool.false_eq_true, if_false]

theorem read_of_blank {c : Char} (cs : List Char) (blank : isBlank c = true) :
    read c cs = (blanks (c :: cs.takeWhile isBlank), cs.dropWhile isBlank) := by
  simp only [isBlank, Bool.or_eq_true, beq_iff_eq] at blank
  rcases blank with (rfl | rfl) | rfl <;> rfl

theorem singleSymbol_of_symbol {s : Symbol} {c : Char} {cs : List Char}
    (front : s.spelling.toList <+: c :: cs) : singleSymbol c ≠ none := by
  obtain ⟨rest, same⟩ := front
  cases s <;> cases same <;> exact fun none => nomatch none

theorem longest_symbol {s : Symbol} {c : Char} {cs : List Char}
    (front : s.spelling.toList <+: c :: cs) :
    s.spelling.toList.length ≤ (read c cs).1.text.length := by
  obtain ⟨tail, text, -⟩ := text_read c cs
  obtain ⟨rest, same⟩ := front
  cases s with
  | bangEqual | equalEqual | greaterEqual | lessEqual =>
    cases same
    exact Nat.le_refl 2
  | leftParen | rightParen | leftBrace | rightBrace | comma | dot | semicolon | minus | plus | slash
  | star | bang | equal | greater | less =>
    rw [text]
    exact Nat.succ_le_succ (Nat.zero_le _)

/-- Whatever the rules allow at the front of a text, the piece that is read is no shorter, and it is
not a faulty one. -/
theorem longest_read {c : Char} {cs : List Char} {other : Piece} (lexical : other.Lexical)
    (front : other.text <+: c :: cs) :
    (read c cs).1.isFaulty = false ∧ other.text.length ≤ (read c cs).1.text.length := by
  cases other with
  | number whole fraction =>
    obtain ⟨digit, bound⟩ := longest_number lexical front
    rw [read_of_digit cs digit]
    exact ⟨sound_readNumber _, bound⟩
  | string contents =>
    obtain ⟨rest, same⟩ := front
    cases same
    have all : ∀ d ∈ contents, (d != '"') = true := by
      intro d member
      rw [bne_iff_ne]
      rintro rfl
      exact lexical member
    have stops : ('"' != '"') = false := by decide
    obtain ⟨run, after⟩ := takeWhile_run (p := (· != '"')) stops all rest
    have found : read '"' (contents ++ '"' :: rest) = (string contents, rest) := by
      change readString _ = _
      unfold readString
      rw [run, after]
    have behind : (contents.append ['"']).append rest = contents ++ '"' :: rest :=
      List.append_assoc contents ['"'] rest
    rw [behind, found]
    exact ⟨rfl, Nat.le_refl _⟩
  | word letters =>
    cases letters with
    | nil => exact lexical.elim
    | cons first others =>
      obtain ⟨same, behind⟩ := List.cons_prefix_cons.mp front
      subst same
      rw [read_of_wordStart cs lexical.1]
      exact ⟨rfl, Nat.succ_le_succ (length_le_takeWhile behind lexical.2)⟩
  | symbol s =>
    refine ⟨?_, longest_symbol front⟩
    cases faulty : (read c cs).1.isFaulty with
    | false => rfl
    | true =>
      rcases faulty_read faulty with ⟨rfl, -, -⟩ | ⟨-, unknown, -⟩
      · exact absurd rfl (singleSymbol_of_symbol front)
      · exact absurd unknown (singleSymbol_of_symbol front)
  | comment text =>
    obtain ⟨rest, same⟩ := front
    cases same
    have all : ∀ d ∈ text, (d != '\n') = true := by
      intro d member
      rw [bne_iff_ne]
      rintro rfl
      exact lexical member
    refine ⟨rfl, Nat.succ_le_succ (Nat.succ_le_succ ?_)⟩
    exact length_le_takeWhile (List.prefix_append text rest) all
  | newline =>
    obtain ⟨rest, same⟩ := front
    cases same
    exact ⟨rfl, Nat.le_refl _⟩
  | blanks text =>
    cases text with
    | nil => exact absurd rfl lexical.1
    | cons first others =>
      obtain ⟨same, behind⟩ := List.cons_prefix_cons.mp front
      subst same
      obtain ⟨blank, rest⟩ := List.forall_mem_cons.mp lexical.2
      rw [read_of_blank cs blank]
      exact ⟨rfl, Nat.succ_le_succ (length_le_takeWhile behind rest)⟩
  | unclosedString | stray => exact lexical.elim

theorem taken_read (c : Char) (cs : List Char) : Taken (c :: cs) (read c cs).1 := by
  cases faulty : (read c cs).1.isFaulty with
  | false =>
    obtain ⟨tail, text, both⟩ := text_read c cs
    refine .inl ⟨lexical_read c cs faulty, ?_, fun other lexical front => (longest_read lexical front).2⟩
    rw [text, ← both]
    exact List.prefix_append (c :: tail) _
  | true =>
    have none_other : ∀ other : Piece, other.Lexical → ¬ other.text <+: c :: cs := by
      intro other lexical front
      rw [(longest_read lexical front).1] at faulty
      cases faulty
    refine .inr ⟨none_other, ?_⟩
    rcases faulty_read faulty with ⟨rfl, -, same⟩ | ⟨quote, -, same⟩
    · rw [same]
      exact ⟨⟨cs, rfl⟩, rfl⟩
    · rw [same, if_neg (by rw [List.head?_cons, Option.some_inj]; exact quote)]
      exact ⟨c, rfl, rfl⟩

def placed (line : Nat) (pieces : List Piece) : List (Nat × Piece) :=
  pieces.mapIdx fun i piece => (line + Text.newlines ((pieces.take i).flatMap text), piece)

theorem placed_cons (line : Nat) (piece : Piece) (rest : List Piece) :
    placed line (piece :: rest) = (line, piece) :: placed (line + Text.newlines piece.text) rest := by
  unfold placed
  rw [List.mapIdx_cons]
  simp only [List.take_succ_cons, List.flatMap_cons, Text.newlines_append, Nat.add_assoc]
  rfl

def isWord : Piece → Bool
  | number _ _ | string _ | word _ | symbol _ => true
  | unclosedString _ | stray _ | comment _ | newline | blanks _ => false

def complaint (line : Nat) : Piece → Option String
  | unclosedString _ => some s!"Unterminated string on line {line}"
  | stray c => some s!"Unexpected character '{c}' on line {line}"
  | number _ _ | string _ | word _ | symbol _ | comment _ | newline | blanks _ => none

end Piece

namespace Scan

open Piece

theorem words_placed (line : Nat) (pieces : List Piece) :
    (words line pieces).map (fun t => (t.line, t.lexeme.toList)) =
      ((placed line pieces).filter (·.2.isWord)).map fun place => (place.1, place.2.text) := by
  induction pieces generalizing line with
  | nil => rfl
  | cons piece rest ih =>
    rw [words, placed_cons, List.map_append, List.filter_cons, ih]
    cases piece with
    | number | string | word | symbol =>
      simp [wordOf, reading, isWord]
    | unclosedString | stray | comment | newline | blanks => rfl

theorem messages_placed (line : Nat) (pieces : List Piece) :
    (ofPieces line pieces).faults.map (fun fault => some fault.message) =
      ((placed line pieces).filter (·.2.isFaulty)).map fun place => place.2.complaint place.1 := by
  induction pieces generalizing line with
  | nil => rfl
  | cons piece rest ih =>
    rw [ofPieces, placed_cons, List.filter_cons]
    cases piece with
    | unclosedString | stray => exact congrArg (List.cons _) (ih _)
    | number | string | word | symbol | comment | newline | blanks => exact ih _

end Scan

theorem tokenize_eq_error {source : String} {faults : List ScanFault} :
    tokenize source = .error faults ↔
      faults ≠ [] ∧ faults = (Scan.ofPieces 1 (Piece.allOf source.toList)).faults := by
  unfold tokenize
  cases Scan.ofPieces 1 (Piece.allOf source.toList) with
  | mk found all =>
    cases all with
    | nil => exact iff_of_false (fun same => nomatch same) fun same => same.1 same.2
    | cons fault rest =>
      constructor
      · intro same
        cases same
        exact ⟨List.cons_ne_nil _ _, rfl⟩
      · rintro ⟨-, rfl⟩
        rfl

/-- Pieces that a source text falls into without any loss, and what the scanner makes of them. -/
structure Lossless (source : String) (pieces : List Piece) : Prop where
  whole : pieces.flatMap Piece.text = source.toList
  longest : ∀ before piece after, pieces = before ++ piece :: after →
    piece.Taken ((piece :: after).flatMap Piece.text)
  accepted : ∀ tokens, tokenize source = .ok tokens →
    ∃ words, tokens = words ++ [.ending (1 + Text.newlines source.toList)] ∧
      words.map (fun t => (t.line, t.lexeme.toList)) =
        ((Piece.placed 1 pieces).filter (·.2.isWord)).map fun place => (place.1, place.2.text)
  rejected : (∃ faults, tokenize source = .error faults) ↔ ∃ piece ∈ pieces, piece.isFaulty = true
  messages : ∀ faults, tokenize source = .error faults →
    faults.map (fun fault => some fault.message) =
      ((Piece.placed 1 pieces).filter (·.2.isFaulty)).map fun place => place.2.complaint place.1
  unclosed : ∀ faults, tokenize source = .error faults → ∀ before line after,
    faults = before ++ .unclosedString line :: after → after = []

theorem Piece.longest_firstOf {n : Nat} {cs : List Char} (enough : cs.length ≤ n)
    {before after : List Piece} {piece : Piece} (split : firstOf n cs = before ++ piece :: after) :
    piece.Taken ((piece :: after).flatMap Piece.text) := by
  induction n generalizing cs before with
  | zero => cases before <;> cases split
  | succ n ih =>
    cases cs with
    | nil => cases before <;> cases split
    | cons c cs =>
      have shorter := length_read c cs
      rw [List.length_cons] at enough
      have enough' : (read c cs).2.length ≤ n := by omega
      cases before with
      | nil =>
        rw [List.nil_append] at split
        have all : (firstOf (n + 1) (c :: cs)).flatMap Piece.text = c :: cs := text_firstOf enough
        rw [split] at all
        rw [all, ← (List.cons.inj split).1]
        exact taken_read c cs
      | cons first others => exact ih enough' (List.cons.inj split).2

/-- After a string without an end nothing is left to read. -/
theorem Scan.unclosed_last {n line number : Nat} {cs : List Char} {before after : List ScanFault}
    (split : (ofPieces line (Piece.firstOf n cs)).faults = before ++ .unclosedString number :: after) :
    after = [] := by
  induction n generalizing line cs before with
  | zero => cases before <;> cases split
  | succ n ih =>
    cases cs with
    | nil => cases before <;> cases split
    | cons c cs =>
      rw [Piece.firstOf_cons, ofPieces] at split
      cases faulty : (Piece.read c cs).1.isFaulty with
      | false =>
        have silent : ∀ scan : Scan, (scan.add (Piece.reading line (Piece.read c cs).1)).faults =
            scan.faults := by
          intro scan
          cases found : (Piece.read c cs).1 with
          | unclosedString | stray =>
            rw [found] at faulty
            cases faulty
          | number | string | word | symbol | comment | newline | blanks => rfl
        rw [silent] at split
        exact ih split
      | true =>
        rcases Piece.faulty_read faulty with ⟨-, -, same⟩ | ⟨-, -, same⟩
        · have none_left : Piece.firstOf n [] = [] := by cases n <;> rfl
          rw [same, none_left] at split
          cases before with
          | nil =>
            cases split
            rfl
          | cons first others =>
            have absent := (List.cons.inj split).2
            cases others <;> cases absent
        · rw [same] at split
          cases before with
          | nil => cases split
          | cons first others => exact ih (List.cons.inj split).2

theorem lossless_allOf (source : String) : Lossless source (Piece.allOf source.toList) where
  whole := Piece.text_allOf source.toList
  longest _ _ _ split := Piece.longest_firstOf (Nat.le_refl _) split
  accepted tokens scanned := by
    obtain ⟨-, same⟩ := tokenize_eq_ok.mp scanned
    exact ⟨_, same, Scan.words_placed 1 _⟩
  rejected := by
    have sound := Scan.faults_ofPieces 1 (Piece.allOf source.toList)
    constructor
    · rintro ⟨faults, scanned⟩
      obtain ⟨some_fault, same⟩ := tokenize_eq_error.mp scanned
      by_contra all_sound
      refine some_fault (same.trans (sound.mpr fun piece member => ?_))
      rw [← Bool.not_eq_true]
      exact fun faulty => all_sound ⟨piece, member, faulty⟩
    · rintro ⟨piece, member, faulty⟩
      refine ⟨_, tokenize_eq_error.mpr ⟨fun none => ?_, rfl⟩⟩
      rw [sound.mp none piece member] at faulty
      cases faulty
  messages faults scanned := by
    rw [(tokenize_eq_error.mp scanned).2]
    exact Scan.messages_placed 1 _
  unclosed faults scanned before line after split :=
    Scan.unclosed_last ((tokenize_eq_error.mp scanned).2.symm.trans split)

end LoxMachine
