import LoxMachine.Proofs.Token.Longest
import Mathlib.Data.Nat.Digits.Defs

namespace LoxMachine

/-- A word of the language, apart from its place in a text. -/
inductive Lexeme where
  | name (first : Char) (others : List Char) (start : Piece.isWordStart first = true)
      (parts : ∀ c ∈ others, Piece.isWordPart c = true)
      (free : ∀ k : Keyword, k.spelling ≠ String.ofList (first :: others))
  | keyword (keyword : Keyword)
  | number (whole fraction : List Char) (some_digit : whole ≠ [])
      (digits : ∀ c ∈ whole, Piece.isDigit c = true)
      (decimals : ∀ c ∈ fraction, Piece.isDigit c = true)
  | string (contents : List Char) (unquoted : '"' ∉ contents)
  | operator (symbol : Symbol)

namespace Lexeme

/-- How the word is written. A number without decimals has no point. -/
def text : Lexeme → List Char
  | name first others .. => first :: others
  | keyword k => k.spelling.toList
  | number whole [] .. => whole
  | number whole fraction .. => whole ++ '.' :: fraction
  | string contents _ => '"' :: contents ++ ['"']
  | operator s => s.spelling.toList

/-- What the word is. A number is exact, and it keeps the count of its decimals. -/
def kind : Lexeme → Kind
  | name .. => .identifier
  | keyword k => .keyword k
  | number whole fraction .. =>
    .number ⟨false, Nat.ofDigits 10 ((whole ++ fraction).map Number.digitValue).reverse,
      -(fraction.length : Int)⟩
  | string contents _ => .string (String.ofList contents)
  | operator s => .symbol s

def token (line : Nat) (word : Lexeme) : Token := ⟨word.kind, String.ofList word.text, line⟩

end Lexeme

/-- What may stand between two words. A comment goes on to the end of its line. -/
inductive Filler where
  | space
  | tab
  | carriageReturn
  | newline
  | comment (text : List Char) (on_one_line : '\n' ∉ text)

namespace Filler

def text : Filler → List Char
  | space => [' ']
  | tab => ['\t']
  | carriageReturn => ['\r']
  | newline => ['\n']
  | comment text _ => '/' :: '/' :: text ++ ['\n']

/-- What keeps a word apart from the next one: anything but a comment, whose slashes could be taken
for a part of the word. -/
def Parts : Filler → Prop
  | space | tab | carriageReturn | newline => True
  | comment .. => False

end Filler

abbrev Gap := List Filler

namespace Gap

def text (gap : Gap) : List Char := gap.flatMap Filler.text

/-- A gap that begins with a blank or a newline. -/
def Parts (gap : Gap) : Prop := ∃ first rest, gap = first :: rest ∧ first.Parts

end Gap

abbrev Writing := List (Lexeme × Gap)

namespace Writing

def text : Writing → List Char
  | [] => []
  | (word, gap) :: rest => word.text ++ gap.text ++ text rest

/-- There is a gap between every two words, and one or none behind the last. -/
def Apart : Writing → Prop
  | [] => True
  | (_, gap) :: rest => (gap.Parts ∨ gap = [] ∧ rest = []) ∧ Apart rest

/-- The tokens of the words, if the first of them starts on the given line: a word starts on a later
line for every newline in the words and gaps before it. -/
def tokens : Nat → Writing → List Token
  | _, [] => []
  | line, (word, gap) :: rest =>
    word.token line :: tokens (line + Text.newlines (word.text ++ gap.text)) rest

end Writing

theorem Number.natOfDigits_eq (digits : List Char) :
    natOfDigits digits = Nat.ofDigits 10 (digits.map digitValue).reverse := by
  rw [Nat.ofDigits_eq_foldr, List.foldr_reverse, List.foldl_map]
  unfold natOfDigits
  simp only [Nat.cast_id, Nat.add_comm]

theorem Keyword.ofSpelling_spelling (k : Keyword) : ofSpelling? k.spelling = some k := by
  cases k <;> decide

theorem Keyword.letters_spelling (k : Keyword) : ∃ first others,
    k.spelling.toList = first :: others ∧ Piece.isWordStart first = true ∧
      ∀ c ∈ others, Piece.isWordPart c = true := by
  cases k <;> exact ⟨_, _, rfl, by decide, List.all_eq_true.mp (by decide)⟩

def Parted (rest : List Char) : Prop := ∀ c ∈ rest.head?, c = ' ' ∨ c = '\t' ∨ c = '\r' ∨ c = '\n'

theorem Parted.ends {rest : List Char} (parted : Parted rest) {p : Char → Bool}
    (outside : ∀ c, c = ' ' ∨ c = '\t' ∨ c = '\r' ∨ c = '\n' → p c = false) :
    ∀ c ∈ rest.head?, p c = false :=
  fun c first => outside c (parted c first)

theorem Parted.head_ne {rest : List Char} (parted : Parted rest) {c : Char}
    (other : ¬(c = ' ' ∨ c = '\t' ∨ c = '\r' ∨ c = '\n')) : rest.head? ≠ some c :=
  fun same => other (parted c same)

namespace Lexeme

open Piece

def piece : Lexeme → Piece
  | name first others .. => .word (first :: others)
  | keyword k => .word k.spelling.toList
  | number whole fraction .. => .number whole fraction
  | string contents _ => .string contents
  | operator s => .symbol s

theorem text_piece (word : Lexeme) : word.piece.text = word.text := by
  cases word with
  | number whole fraction => cases fraction <;> rfl
  | name | keyword | string | operator => rfl

theorem sound_piece (word : Lexeme) : word.piece.isFaulty = false := by
  cases word <;> rfl

theorem wordOf_piece (word : Lexeme) (line : Nat) :
    Scan.wordOf line word.piece = [word.token line] := by
  cases word with
  | name first others start parts free =>
    have unreserved : Keyword.ofSpelling? (String.ofList (first :: others)) = none :=
      List.find?_eq_none.mpr fun k _ same => free k (beq_iff_eq.mp same)
    change [Token.mk (Kind.ofWord (String.ofList (first :: others))) _ _] = _
    rw [Kind.ofWord, unreserved]
    rfl
  | keyword k =>
    change [Token.mk (Kind.ofWord (String.ofList k.spelling.toList)) _ _] = _
    rw [String.ofList_toList, Kind.ofWord, Keyword.ofSpelling_spelling]
    rfl
  | number whole fraction some_digit digits decimals =>
    change [Token.mk (.number (.ofDigits whole fraction)) (String.ofList (Piece.text _)) line] = _
    rw [Number.ofDigits, Number.natOfDigits_eq, token, ← text_piece]
    rfl
  | string | operator => rfl

theorem read_letters {first : Char} {others rest : List Char} (start : isWordStart first = true)
    (parts : ∀ c ∈ others, isWordPart c = true) (parted : Parted rest) :
    read first (others ++ rest) = (.word (first :: others), rest) := by
  obtain ⟨taken, left⟩ := takeWhile_front parts
    (parted.ends (by rintro _ (rfl | rfl | rfl | rfl) <;> decide))
  rw [read_of_wordStart _ start, taken, left]

theorem readNumber_whole {whole rest : List Char} (digits : ∀ c ∈ whole, isDigit c = true)
    (parted : Parted rest) : readNumber (whole ++ rest) = (.number whole [], rest) := by
  obtain ⟨taken, left⟩ := takeWhile_front digits
    (parted.ends (by rintro _ (rfl | rfl | rfl | rfl) <;> decide))
  have no_point : rest.head? ≠ some '.' := parted.head_ne (by decide)
  unfold readNumber
  rw [taken, left]
  cases rest with
  | nil => rfl
  | cons c cs =>
    split
    · rename_i same
      cases same
      exact absurd rfl no_point
    · rfl

theorem readNumber_fraction {whole fraction rest : List Char} (some_decimal : fraction ≠ [])
    (digits : ∀ c ∈ whole, isDigit c = true) (decimals : ∀ c ∈ fraction, isDigit c = true)
    (parted : Parted rest) :
    readNumber (whole ++ '.' :: fraction ++ rest) = (.number whole fraction, rest) := by
  have point : isDigit '.' = false := by decide
  obtain ⟨taken, left⟩ := takeWhile_run point digits (fraction ++ rest)
  obtain ⟨taken', left'⟩ := takeWhile_front decimals
    (parted.ends (by rintro _ (rfl | rfl | rfl | rfl) <;> decide))
  unfold readNumber
  rw [List.append_assoc, List.cons_append, taken, left]
  simp only [taken', left']

theorem readString_closed {contents : List Char} (unquoted : '"' ∉ contents) (rest : List Char) :
    readString (contents ++ '"' :: rest) = (.string contents, rest) := by
  have all : ∀ c ∈ contents, (c != '"') = true := by
    intro c member
    rw [bne_iff_ne]
    rintro rfl
    exact unquoted member
  obtain ⟨taken, left⟩ := takeWhile_run (p := (· != '"')) (by decide : ('"' != '"') = false) all rest
  unfold readString
  rw [taken, left]

/-- A symbol of two characters is read whatever follows it; one of a single character is no part of
a longer symbol, nor of a comment. -/
theorem read_symbol (s : Symbol) {rest : List Char} (parted : Parted rest) :
    ∃ c cs, s.spelling.toList ++ rest = c :: cs ∧ read c cs = (.symbol s, rest) := by
  have no_equal : rest.head? ≠ some '=' := parted.head_ne (by decide)
  have no_slash : (rest.head? == some '/') = false :=
    beq_eq_false_iff_ne.mpr (parted.head_ne (by decide))
  cases s with
  | bangEqual | equalEqual | greaterEqual | lessEqual => exact ⟨_, _, rfl, rfl⟩
  | slash =>
    refine ⟨'/', rest, rfl, ?_⟩
    change (if (rest.head? == some '/') = true then _ else _) = _
    rw [no_slash]
    rfl
  | bang | equal | greater | less =>
    refine ⟨_, rest, rfl, ?_⟩
    unfold Piece.read
    rw [readSymbol_single _ no_equal]
    rfl
  | leftParen | rightParen | leftBrace | rightBrace | comma | dot | semicolon | minus | plus
  | star => exact ⟨_, _, rfl, rfl⟩

/-- A word in front of a blank, a newline or the end of the text is read as its piece. -/
theorem read_word (word : Lexeme) {rest : List Char} (parted : Parted rest) :
    ∃ c cs, word.text ++ rest = c :: cs ∧ read c cs = (word.piece, rest) := by
  cases word with
  | name first others start parts => exact ⟨first, _, rfl, read_letters start parts parted⟩
  | keyword k =>
    obtain ⟨first, others, spelled, start, parts⟩ := k.letters_spelling
    refine ⟨first, others ++ rest, ?_, ?_⟩
    · change k.spelling.toList ++ rest = first :: (others ++ rest)
      rw [spelled]
      rfl
    · rw [piece, spelled]
      exact read_letters start parts parted
  | number whole fraction some_digit digits decimals =>
    cases whole with
    | nil => exact absurd rfl some_digit
    | cons d ds =>
      have digit : isDigit d = true := digits d List.mem_cons_self
      cases fraction with
      | nil =>
        refine ⟨d, ds ++ rest, rfl, ?_⟩
        rw [read_of_digit _ digit]
        exact readNumber_whole digits parted
      | cons e es =>
        refine ⟨d, ds ++ '.' :: e :: es ++ rest, rfl, ?_⟩
        rw [read_of_digit _ digit]
        exact readNumber_fraction (List.cons_ne_nil e es) digits decimals parted
  | string contents unquoted =>
    refine ⟨'"', contents ++ '"' :: rest, ?_, readString_closed unquoted rest⟩
    change '"' :: (contents ++ ['"'] ++ rest) = '"' :: (contents ++ '"' :: rest)
    rw [List.append_assoc]
    rfl
  | operator s => exact read_symbol s parted

end Lexeme

structure Scanned (line : Nat) (cs : List Char) (tokens : List Token) : Prop where
  sound : ∀ piece ∈ Piece.allOf cs, piece.isFaulty = false
  words : Scan.words line (Piece.allOf cs) = tokens

namespace Scanned

variable {line : Nat} {cs rest : List Char} {tokens : List Token}

theorem nil : Scanned line [] [] where
  sound _ absent := nomatch absent
  words := rfl

theorem cons {c : Char} {piece : Piece} (read : Piece.read c cs = (piece, rest))
    (sound : piece.isFaulty = false)
    (after : Scanned (line + Text.newlines piece.text) rest tokens) :
    Scanned line (c :: cs) (Scan.wordOf line piece ++ tokens) := by
  have pieces : Piece.allOf (c :: cs) = piece :: Piece.allOf rest := by
    rw [Piece.allOf_cons, read]
  constructor
  · rw [pieces]
    exact List.forall_mem_cons.mpr ⟨sound, after.sound⟩
  · rw [pieces, Scan.words, after.words]

theorem newlines_blanks {blanks : List Char} (all : ∀ c ∈ blanks, Piece.isBlank c = true) :
    Text.newlines blanks = 0 :=
  List.count_eq_zero.mpr fun member => absurd (all _ member) (by decide)

theorem dropBlanks_iff : Scanned line (cs.dropWhile Piece.isBlank) tokens ↔ Scanned line cs tokens := by
  cases cs with
  | nil => exact Iff.rfl
  | cons c cs =>
    rw [List.dropWhile_cons]
    split
    · rename_i blank
      have all : ∀ d ∈ c :: cs.takeWhile Piece.isBlank, Piece.isBlank d = true :=
        List.forall_mem_cons.mpr ⟨blank, Piece.all_takeWhile⟩
      have pieces : Piece.allOf (c :: cs) = .blanks (c :: cs.takeWhile Piece.isBlank) ::
          Piece.allOf (cs.dropWhile Piece.isBlank) := by
        rw [Piece.allOf_cons, Piece.read_of_blank cs blank]
      have same : Scan.words line (Piece.allOf (c :: cs)) =
          Scan.words line (Piece.allOf (cs.dropWhile Piece.isBlank)) := by
        rw [pieces, Scan.words, Piece.text, newlines_blanks all]
        rfl
      constructor
      · intro later
        refine ⟨?_, same.trans later.words⟩
        rw [pieces]
        exact List.forall_mem_cons.mpr ⟨rfl, later.sound⟩
      · intro whole
        refine ⟨?_, same.symm.trans whole.words⟩
        have sound := whole.sound
        rw [pieces] at sound
        exact (List.forall_mem_cons.mp sound).2
    · exact Iff.rfl

theorem blank {c : Char} (is_blank : Piece.isBlank c = true) (after : Scanned line cs tokens) :
    Scanned line (c :: cs) tokens := by
  refine dropBlanks_iff.mp ?_
  rw [List.dropWhile_cons, if_pos is_blank]
  exact dropBlanks_iff.mpr after

theorem newline (after : Scanned (line + 1) cs tokens) : Scanned line ('\n' :: cs) tokens :=
  cons (rfl : Piece.read '\n' cs = (.newline, cs)) rfl after

theorem comment {text : List Char} (on_one_line : '\n' ∉ text)
    (after : Scanned (line + 1) cs tokens) :
    Scanned line ('/' :: '/' :: text ++ '\n' :: cs) tokens := by
  have all : ∀ c ∈ text, (c != '\n') = true := by
    intro c member
    rw [bne_iff_ne]
    rintro rfl
    exact on_one_line member
  obtain ⟨taken, left⟩ :=
    Piece.takeWhile_run (p := (· != '\n')) (by decide : ('\n' != '\n') = false) all cs
  have read : Piece.read '/' ('/' :: (text ++ '\n' :: cs)) = (.comment text, '\n' :: cs) := by
    change (Piece.comment ((text ++ '\n' :: cs).takeWhile (· != '\n')),
      (text ++ '\n' :: cs).dropWhile (· != '\n')) = _
    rw [taken, left]
  have no_line : Text.newlines (Piece.comment text).text = 0 := by
    refine List.count_eq_zero.mpr ?_
    rw [Piece.text, List.mem_cons, List.mem_cons]
    rintro (absurd | absurd | member)
    · cases absurd
    · cases absurd
    · exact on_one_line member
  refine cons read rfl ?_
  rw [no_line]
  exact newline after

theorem filler (filler : Filler) (after : Scanned (line + Text.newlines filler.text) cs tokens) :
    Scanned line (filler.text ++ cs) tokens := by
  cases filler with
  | space | tab | carriageReturn => exact blank (by decide) after
  | newline => exact newline after
  | comment text on_one_line =>
    have one_line : Text.newlines (Filler.comment text on_one_line).text = 1 := by
      have rest : text.count '\n' = 0 := List.count_eq_zero.mpr on_one_line
      change ('/' :: '/' :: (text ++ ['\n'])).count '\n' = 1
      rw [List.count_cons_of_ne (by decide), List.count_cons_of_ne (by decide), List.count_append, rest]
      rfl
    rw [one_line] at after
    rw [Filler.text, List.append_assoc]
    exact comment on_one_line after

theorem gap (gap : Gap) (after : Scanned (line + Text.newlines gap.text) cs tokens) :
    Scanned line (gap.text ++ cs) tokens := by
  induction gap generalizing line with
  | nil => exact after
  | cons first rest ih =>
    rw [Gap.text, List.flatMap_cons, Text.newlines_append, ← Nat.add_assoc] at after
    rw [Gap.text, List.flatMap_cons, List.append_assoc]
    exact filler first (ih after)

theorem word (word : Lexeme) (parted : Parted cs)
    (after : Scanned (line + Text.newlines word.text) cs tokens) :
    Scanned line (word.text ++ cs) (word.token line :: tokens) := by
  obtain ⟨c, ds, text, read⟩ := word.read_word parted
  rw [← word.text_piece] at after
  rw [text]
  have whole := cons read word.sound_piece after
  rw [word.wordOf_piece] at whole
  exact whole

end Scanned

theorem Gap.Parts.parted {gap : Gap} (parts : gap.Parts) (rest : List Char) :
    Parted (gap.text ++ rest) := by
  obtain ⟨first, others, rfl, parts⟩ := parts
  intro c head
  cases first with
  | space | tab | carriageReturn | newline =>
    cases head
    decide
  | comment => exact parts.elim

/-- By induction on the words: a word is read up to its gap, and the rest begins behind the gap. -/
theorem Writing.scanned {words : Writing} (apart : words.Apart) (line : Nat) :
    Scanned line words.text (words.tokens line) := by
  induction words generalizing line with
  | nil => exact .nil
  | cons item rest ih =>
    obtain ⟨word, gap⟩ := item
    obtain ⟨between, apart⟩ := apart
    -- only behind the last word may the gap be empty, and then nothing follows
    have parted : Parted (gap.text ++ text rest) := by
      rcases between with parts | ⟨rfl, rfl⟩
      · exact parts.parted _
      · exact fun _ absent => nomatch absent
    have later := ih apart (line + Text.newlines (word.text ++ gap.text))
    rw [Text.newlines_append, ← Nat.add_assoc] at later
    rw [text, List.append_assoc, tokens, Text.newlines_append, ← Nat.add_assoc]
    exact .word word parted (.gap gap later)

/-- Scanning undoes writing: the tokens of a written text are its words, and the end. -/
theorem tokenize_written (front : Gap) (words : Writing) (apart : words.Apart) :
    tokenize (String.ofList (front.text ++ words.text)) =
      .ok (words.tokens (1 + Text.newlines front.text) ++
        [.ending (1 + Text.newlines (front.text ++ words.text))]) := by
  have scanned : Scanned 1 (front.text ++ words.text) (words.tokens (1 + Text.newlines front.text)) :=
    .gap front (words.scanned apart _)
  refine tokenize_eq_ok.mpr ?_
  rw [String.toList_ofList, scanned.words]
  exact ⟨scanned.sound, rfl⟩

/-- A text with a slash in front of a comment, a string with a comment and a newline in it, and a
name that begins like a reserved word. -/
theorem tokenize_written_quotient :
    tokenize "//\norb / //\"\n\"//\n\"\t1.00" = .ok [⟨.identifier, "orb", 2⟩, ⟨.symbol .slash, "/", 2⟩,
      ⟨.string "//\n", "\"//\n\"", 3⟩, ⟨.number ⟨false, 100, -2⟩, "1.00", 4⟩, .ending 4] :=
  tokenize_written [.comment [] (by decide)]
    [(.name 'o' ['r', 'b'] (by decide) (List.all_eq_true.mp (by decide)) (fun k => by cases k <;> decide), [.space]),
      (.operator .slash, [.space, .comment ['"'] (by decide)]),
      (.string ['/', '/', '\n'] (by decide), [.tab]),
      (.number ['1'] ['0', '0'] (by decide) (List.all_eq_true.mp (by decide))
        (List.all_eq_true.mp (by decide)), [])]
    ⟨.inl ⟨_, _, rfl, True.intro⟩, .inl ⟨_, _, rfl, True.intro⟩, .inl ⟨_, _, rfl, True.intro⟩,
      .inr ⟨rfl, rfl⟩, True.intro⟩

end LoxMachine
