import LoxMachine.Token.Scan

namespace LoxMachine

namespace Piece

section Stop

variable {p : Char → Bool} {stop : Char} (stops : p stop = false) (cs rest : List Char)

include stops

theorem takeWhile_stop : (cs ++ stop :: rest).takeWhile p = cs.takeWhile p := by
  induction cs with
  | nil => rw [List.nil_append, List.takeWhile_cons, stops]; rfl
  | cons c cs ih => rw [List.cons_append, List.takeWhile_cons, List.takeWhile_cons, ih]

theorem dropWhile_stop : (cs ++ stop :: rest).dropWhile p = cs.dropWhile p ++ stop :: rest := by
  induction cs with
  | nil => rw [List.nil_append, List.dropWhile_cons, stops]; rfl
  | cons c cs ih =>
    rw [List.cons_append, List.dropWhile_cons, List.dropWhile_cons, ih]
    split <;> rfl

end Stop

theorem while_append {p : Char → Bool} {cs ds : List Char} {d : Char} (rest : List Char)
    (stopped : cs.dropWhile p = d :: ds) :
    (cs ++ rest).takeWhile p = cs.takeWhile p ∧ (cs ++ rest).dropWhile p = d :: ds ++ rest := by
  induction cs with
  | nil => cases stopped
  | cons c cs ih =>
    rw [List.dropWhile_cons] at stopped
    rw [List.cons_append, List.takeWhile_cons, List.takeWhile_cons, List.dropWhile_cons]
    split at stopped
    · rename_i goes_on
      obtain ⟨taken, left⟩ := ih stopped
      rw [if_pos goes_on, if_pos goes_on, if_pos goes_on, taken]
      exact ⟨rfl, left⟩
    · rename_i stops
      cases stopped
      rw [if_neg stops, if_neg stops, if_neg stops]
      exact ⟨rfl, rfl⟩

/-- The symbol of one character. -/
def singleSymbol : Char → Option Symbol
  | '!' => some .bang
  | '=' => some .equal
  | '>' => some .greater
  | '<' => some .less
  | '-' => some .minus
  | '+' => some .plus
  | '/' => some .slash
  | '*' => some .star
  | '(' => some .leftParen
  | ')' => some .rightParen
  | '{' => some .leftBrace
  | '}' => some .rightBrace
  | ',' => some .comma
  | '.' => some .dot
  | ';' => some .semicolon
  | _ => none

def pairSymbol : Char → Option Symbol
  | '!' => some .bangEqual
  | '=' => some .equalEqual
  | '>' => some .greaterEqual
  | '<' => some .lessEqual
  | _ => none

theorem readSymbol_single (c : Char) {cs : List Char} (alone : cs.head? ≠ some '=') :
    readSymbol (c :: cs) = (singleSymbol c).map (·, cs) := by
  have other : ∀ rest, cs ≠ '=' :: rest := by
    rintro rest rfl
    exact alone rfl
  unfold singleSymbol
  split
  case h_16 => simp_all [readSymbol]
  case h_1 | h_2 | h_3 | h_4 => simp only [readSymbol, Option.map_some]
  all_goals rfl

theorem readSymbol_pair (c : Char) (cs : List Char) :
    readSymbol (c :: '=' :: cs) =
      ((pairSymbol c).map (·, cs)).or ((singleSymbol c).map (·, '=' :: cs)) := by
  unfold pairSymbol
  split
  case h_5 =>
    unfold singleSymbol
    split
    case h_16 => simp_all [readSymbol]
    all_goals first | rfl | contradiction
  all_goals rfl

theorem readSymbol_stop (c : Char) (cs rest : List Char) :
    readSymbol (c :: (cs ++ '\n' :: rest)) =
      (readSymbol (c :: cs)).map fun found => (found.1, found.2 ++ '\n' :: rest) := by
  by_cases pair : cs.head? = some '='
  · cases cs with
    | nil => cases pair
    | cons d ds =>
      cases pair
      rw [List.cons_append, readSymbol_pair, readSymbol_pair]
      cases pairSymbol c with
      | some s => rfl
      | none => cases singleSymbol c <;> rfl
  · have alone : (cs ++ '\n' :: rest).head? ≠ some '=' := by
      cases cs with
      | nil =>
        rintro ⟨⟩
      | cons d ds => exact pair
    rw [readSymbol_single c pair, readSymbol_single c alone]
    cases singleSymbol c <;> rfl

def behind (rest : List Char) (found : Piece × List Char) : Piece × List Char :=
  (found.1, found.2 ++ '\n' :: rest)

theorem readNumber_stop (cs rest : List Char) :
    readNumber (cs ++ '\n' :: rest) = behind rest (readNumber cs) := by
  unfold readNumber
  rw [takeWhile_stop (by decide), dropWhile_stop (by decide)]
  cases left : cs.dropWhile isDigit with
  | nil => rfl
  | cons d ds =>
    by_cases dot : d = '.'
    · subst dot
      have digits : (ds ++ '\n' :: rest).takeWhile isDigit = ds.takeWhile isDigit :=
        takeWhile_stop (by decide) ds rest
      have others : (ds ++ '\n' :: rest).dropWhile isDigit = ds.dropWhile isDigit ++ '\n' :: rest :=
        dropWhile_stop (by decide) ds rest
      simp only [List.cons_append, digits, others]
      cases ds.takeWhile isDigit <;> rfl
    · simp only [List.cons_append, behind]
      split
      · rename_i same
        exact absurd (List.cons.inj same).1 dot
      · split
        · rename_i same
          exact absurd (List.cons.inj same).1 dot
        · rfl

theorem readString_stop (cs rest : List Char)
    (closed : ∀ contents, (readString cs).1 ≠ unclosedString contents) :
    readString (cs ++ '\n' :: rest) = behind rest (readString cs) := by
  unfold readString at closed ⊢
  cases left : cs.dropWhile (· != '"') with
  | nil =>
    rw [left] at closed
    exact absurd rfl (closed _)
  | cons d ds =>
    obtain ⟨taken, after⟩ := while_append ('\n' :: rest) left
    rw [taken, after]
    rfl

theorem readComment_stop (cs rest : List Char) (slash : cs.head? = some '/') :
    (cs ++ '\n' :: rest).tail.takeWhile (· != '\n') = cs.tail.takeWhile (· != '\n') ∧
      (cs ++ '\n' :: rest).tail.dropWhile (· != '\n') =
        cs.tail.dropWhile (· != '\n') ++ '\n' :: rest := by
  cases cs with
  | nil => cases slash
  | cons d ds => exact ⟨takeWhile_stop (by decide) ds rest, dropWhile_stop (by decide) ds rest⟩

theorem head_stop (cs rest : List Char) :
    ((cs ++ '\n' :: rest).head? == some '/') = (cs.head? == some '/') := by
  cases cs with
  | nil => rfl
  | cons d ds => rfl

theorem read_stop (c : Char) (cs rest : List Char)
    (closed : ∀ contents, (read c cs).1 ≠ unclosedString contents) :
    read c (cs ++ '\n' :: rest) = behind rest (read c cs) := by
  unfold read at closed ⊢
  rw [head_stop]
  split
  · exact readNumber_stop (c :: cs) rest
  · rename_i digit
    rw [if_neg digit] at closed
    split
    · rename_i quote
      rw [if_pos quote] at closed
      exact readString_stop cs rest closed
    · split
      · rw [takeWhile_stop (by decide), dropWhile_stop (by decide)]
        rfl
      · split
        · rfl
        · split
          · rw [takeWhile_stop (by decide), dropWhile_stop (by decide)]
            rfl
          · split
            · rename_i comment
              have slash := eq_of_beq (Bool.and_eq_true_iff.mp comment).2
              obtain ⟨taken, after⟩ := readComment_stop cs rest slash
              rw [taken, after]
              rfl
            · rw [readSymbol_stop]
              cases readSymbol (c :: cs) <;> rfl

theorem text_readSymbol {cs rest : List Char} {s : Symbol} (found : readSymbol cs = some (s, rest)) :
    s.spelling.toList ++ rest = cs := by
  unfold readSymbol at found
  split at found <;> cases found <;> rfl

theorem text_readNumber {c : Char} (cs : List Char) (digit : isDigit c = true) :
    ∃ tail, (readNumber (c :: cs)).1.text = c :: tail ∧ tail ++ (readNumber (c :: cs)).2 = cs := by
  have whole : (c :: cs).takeWhile isDigit = c :: cs.takeWhile isDigit := by
    rw [List.takeWhile_cons, if_pos digit]
  have after : (c :: cs).dropWhile isDigit = cs.dropWhile isDigit := by
    rw [List.dropWhile_cons, if_pos digit]
  have both : cs.takeWhile isDigit ++ cs.dropWhile isDigit = cs := List.takeWhile_append_dropWhile
  unfold readNumber
  rw [whole, after]
  split
  · rename_i rest left
    rw [left] at both
    split
    · exact ⟨cs.takeWhile isDigit, rfl, both⟩
    · rename_i fraction digits
      have inner : rest.takeWhile isDigit ++ rest.dropWhile isDigit = rest :=
        List.takeWhile_append_dropWhile
      refine ⟨cs.takeWhile isDigit ++ '.' :: rest.takeWhile isDigit, ?_, ?_⟩
      · cases found : rest.takeWhile isDigit with
        | nil => exact absurd found digits
        | cons d ds => rfl
      · rw [List.append_assoc, List.cons_append, inner, both]
  · exact ⟨cs.takeWhile isDigit, rfl, both⟩

theorem text_readString (cs : List Char) :
    ∃ tail, (readString cs).1.text = '"' :: tail ∧ tail ++ (readString cs).2 = cs := by
  have both : cs.takeWhile (· != '"') ++ cs.dropWhile (· != '"') = cs :=
    List.takeWhile_append_dropWhile
  unfold readString
  cases left : cs.dropWhile (· != '"') with
  | nil =>
    rw [left] at both
    exact ⟨cs.takeWhile (· != '"'), rfl, both⟩
  | cons d ds =>
    have quote : d = '"' := by
      have stops := List.head?_dropWhile_not (· != '"') cs
      rw [left] at stops
      simpa using stops
    subst quote
    rw [left] at both
    refine ⟨cs.takeWhile (· != '"') ++ ['"'], rfl, ?_⟩
    rw [List.append_assoc]
    exact both

/-- No character is lost. -/
theorem text_read (c : Char) (cs : List Char) :
    ∃ tail, (read c cs).1.text = c :: tail ∧ tail ++ (read c cs).2 = cs := by
  unfold read
  split
  · rename_i digit
    exact text_readNumber cs digit
  · split
    · rename_i quote
      rw [eq_of_beq quote]
      exact text_readString cs
    · split
      · exact ⟨_, rfl, List.takeWhile_append_dropWhile⟩
      · split
        · rename_i newline
          rw [eq_of_beq newline]
          exact ⟨[], rfl, rfl⟩
        · split
          · exact ⟨_, rfl, List.takeWhile_append_dropWhile⟩
          · split
            · rename_i comment
              obtain ⟨first, second⟩ := Bool.and_eq_true_iff.mp comment
              rw [eq_of_beq first]
              cases cs with
              | nil => cases eq_of_beq second
              | cons d ds =>
                cases eq_of_beq second
                refine ⟨_, rfl, ?_⟩
                exact congrArg (List.cons '/') List.takeWhile_append_dropWhile
            · cases found : readSymbol (c :: cs) with
              | none => exact ⟨[], rfl, rfl⟩
              | some entry =>
                obtain ⟨s, rest⟩ := entry
                have spelled := text_readSymbol found
                cases letters : s.spelling.toList with
                | nil => cases s <;> cases letters
                | cons d ds =>
                  rw [letters] at spelled
                  cases spelled
                  exact ⟨ds, letters, rfl⟩

theorem length_read (c : Char) (cs : List Char) : (read c cs).2.length ≤ cs.length := by
  obtain ⟨tail, _, both⟩ := text_read c cs
  have lengths := congrArg List.length both
  rw [List.length_append] at lengths
  omega

theorem firstOf_cons (n : Nat) (c : Char) (cs : List Char) :
    firstOf (n + 1) (c :: cs) = (read c cs).1 :: firstOf n (read c cs).2 := rfl

theorem firstOf_enough {n m : Nat} {cs : List Char} (one : cs.length ≤ n) (two : cs.length ≤ m) :
    firstOf n cs = firstOf m cs := by
  induction n generalizing m cs with
  | zero =>
    cases List.eq_nil_of_length_eq_zero (Nat.le_zero.mp one)
    cases m <;> rfl
  | succ n ih =>
    cases cs with
    | nil => cases m <;> rfl
    | cons c cs =>
      cases m with
      | zero => cases two
      | succ m =>
        have shorter := length_read c cs
        rw [List.length_cons] at one two
        have same : firstOf n (read c cs).2 = firstOf m (read c cs).2 := ih (by omega) (by omega)
        rw [firstOf_cons, firstOf_cons, same]

theorem allOf_cons (c : Char) (cs : List Char) :
    allOf (c :: cs) = (read c cs).1 :: allOf (read c cs).2 := by
  unfold allOf
  rw [List.length_cons, firstOf_cons, firstOf_enough (length_read c cs) (Nat.le_refl _)]

@[elab_as_elim]
theorem allOf_induction {motive : List Char → Prop} (nil : motive [])
    (cons : ∀ c cs, motive (read c cs).2 → motive (c :: cs)) (cs : List Char) : motive cs := by
  induction size : cs.length using Nat.strongRecOn generalizing cs with
  | ind n ih =>
    cases cs with
    | nil => exact nil
    | cons c cs =>
      have shorter := length_read c cs
      rw [List.length_cons] at size
      exact cons c cs (ih _ (by omega) _ rfl)

theorem allOf_join {cs rest : List Char} (closed : ∀ contents, unclosedString contents ∉ allOf cs) :
    allOf (cs ++ '\n' :: rest) = allOf cs ++ newline :: allOf rest := by
  induction cs using allOf_induction with
  | nil => exact allOf_cons '\n' rest
  | cons c cs ih =>
    rw [allOf_cons] at closed
    have here : ∀ contents, (read c cs).1 ≠ unclosedString contents := fun contents same =>
      closed contents (same ▸ List.mem_cons_self)
    have later : ∀ contents, unclosedString contents ∉ allOf (read c cs).2 :=
      fun contents member => closed contents (List.mem_cons_of_mem _ member)
    rw [List.cons_append, allOf_cons, read_stop c cs rest here, behind, ih later,
      allOf_cons c cs, List.cons_append]

theorem text_firstOf {n : Nat} {cs : List Char} (enough : cs.length ≤ n) :
    (firstOf n cs).flatMap Piece.text = cs := by
  induction n generalizing cs with
  | zero =>
    cases List.eq_nil_of_length_eq_zero (Nat.le_zero.mp enough)
    rfl
  | succ n ih =>
    cases cs with
    | nil => rfl
    | cons c cs =>
      obtain ⟨tail, text, both⟩ := text_read c cs
      have shorter := length_read c cs
      rw [List.length_cons] at enough
      have later : (firstOf n (read c cs).2).flatMap Piece.text = (read c cs).2 := ih (by omega)
      rw [firstOf_cons, List.flatMap_cons, later, text, List.cons_append, both]

theorem text_allOf (cs : List Char) : (allOf cs).flatMap Piece.text = cs :=
  text_firstOf (Nat.le_refl _)

/-- A place that is no token. -/
def isFaulty : Piece → Bool
  | unclosedString _ | stray _ => true
  | number _ _ | string _ | word _ | symbol _ | comment _ | newline | blanks _ => false

end Piece

theorem Text.newlines_append (first second : List Char) :
    newlines (first ++ second) = newlines first + newlines second := List.count_append

def Token.later (lines : Nat) (t : Token) : Token := { t with line := t.line + lines }

namespace Scan

open Text

def wordOf (line : Nat) (piece : Piece) : List Token :=
  match piece.reading line with
  | .token t => [t]
  | .fault _ | .nothing => []

def words : Nat → List Piece → List Token
  | _, [] => []
  | line, piece :: rest => wordOf line piece ++ words (line + newlines piece.text) rest

theorem tokens_ofPieces (line : Nat) (pieces : List Piece) :
    (ofPieces line pieces).tokens =
      words line pieces ++ [.ending (line + newlines (pieces.flatMap Piece.text))] := by
  induction pieces generalizing line with
  | nil => rfl
  | cons piece rest ih =>
    have later := ih (line + newlines piece.text)
    rw [ofPieces, words, wordOf, List.flatMap_cons, newlines_append, ← Nat.add_assoc,
      List.append_assoc, ← later]
    cases piece.reading line <;> rfl

theorem faults_ofPieces (line : Nat) (pieces : List Piece) :
    (ofPieces line pieces).faults = [] ↔ ∀ piece ∈ pieces, piece.isFaulty = false := by
  induction pieces generalizing line with
  | nil => exact iff_of_true rfl fun _ absent => nomatch absent
  | cons piece rest ih =>
    rw [ofPieces, List.forall_mem_cons]
    cases piece with
    | unclosedString | stray => exact iff_of_false (List.cons_ne_nil _ _) fun all => nomatch all.1
    | number | string | word | symbol | comment | newline | blanks =>
      exact (ih _).trans (iff_and_self.mpr fun _ => rfl)

theorem words_append (line : Nat) (first second : List Piece) :
    words line (first ++ second) =
      words line first ++ words (line + newlines (first.flatMap Piece.text)) second := by
  induction first generalizing line with
  | nil => rfl
  | cons piece rest ih =>
    rw [List.cons_append, words, words, ih, List.flatMap_cons, newlines_append, List.append_assoc,
      Nat.add_assoc]

theorem words_later (line lines : Nat) (pieces : List Piece) :
    words (line + lines) pieces = (words line pieces).map (Token.later lines) := by
  induction pieces generalizing line with
  | nil => rfl
  | cons piece rest ih =>
    have here : wordOf (line + lines) piece = (wordOf line piece).map (Token.later lines) := by
      cases piece <;> rfl
    have same : line + lines + newlines piece.text = line + newlines piece.text + lines := by omega
    rw [words, words, here, same, ih, List.map_append]

theorem not_ending_of_words {line : Nat} {pieces : List Piece} :
    ∀ t ∈ words line pieces, t.isEnding = false := by
  induction pieces generalizing line with
  | nil => exact fun _ absent => nomatch absent
  | cons piece rest ih =>
    intro t member
    rcases List.mem_append.mp member with here | later
    · cases piece with
      | word letters =>
        cases List.mem_singleton.mp here
        unfold Token.isEnding Kind.ofWord
        split <;> rfl
      | number | string | symbol =>
        cases List.mem_singleton.mp here
        rfl
      | unclosedString | stray | comment | newline | blanks => cases here
    · exact ih t later

end Scan

theorem tokenize_eq_ok {source : String} {tokens : List Token} :
    tokenize source = .ok tokens ↔
      (∀ piece ∈ Piece.allOf source.toList, piece.isFaulty = false) ∧
        tokens = Scan.words 1 (Piece.allOf source.toList)
          ++ [.ending (1 + Text.newlines source.toList)] := by
  have scanned := Scan.tokens_ofPieces 1 (Piece.allOf source.toList)
  rw [Piece.text_allOf] at scanned
  rw [← Scan.faults_ofPieces 1, ← scanned]
  unfold tokenize
  cases Scan.ofPieces 1 (Piece.allOf source.toList) with
  | mk found faults =>
    cases faults with
    | nil => exact ⟨fun same => ⟨rfl, (Except.ok.inj same).symm⟩, fun same => by rw [same.2]⟩
    | cons fault rest => exact iff_of_false (fun same => nomatch same) fun same => nomatch same.1

theorem text_join (first second : String) :
    (first ++ "\n" ++ second).toList = first.toList ++ '\n' :: second.toList := by
  rw [String.toList_append, String.toList_append, List.append_assoc]
  rfl

/-- The tokens of a text with another one behind it, on a line of its own: those of the first
without the one for its end, and those of the second on later lines. -/
theorem tokenize_join {first second : String} {tokens others : List Token}
    (one : tokenize first = .ok tokens) (two : tokenize second = .ok others) :
    ∃ words, tokens = words ++ [.ending (1 + Text.newlines first.toList)] ∧
      (∀ t ∈ words, t.isEnding = false) ∧
      tokenize (first ++ "\n" ++ second) =
        .ok (words ++ others.map (Token.later (Text.newlines first.toList + 1))) := by
  obtain ⟨sound, rfl⟩ := tokenize_eq_ok.mp one
  obtain ⟨sound', rfl⟩ := tokenize_eq_ok.mp two
  refine ⟨_, rfl, Scan.not_ending_of_words, tokenize_eq_ok.mpr ?_⟩
  rw [text_join, Piece.allOf_join fun contents member => nomatch sound _ member]
  constructor
  · intro piece member
    rcases List.mem_append.mp member with here | later
    · exact sound piece here
    · rcases List.mem_cons.mp later with rfl | there
      · rfl
      · exact sound' piece there
  · have later := Scan.words_later 1 (Text.newlines first.toList + 1) (Piece.allOf second.toList)
    have after : Scan.words (1 + Text.newlines first.toList) (.newline :: Piece.allOf second.toList) =
        Scan.words (1 + (Text.newlines first.toList + 1)) (Piece.allOf second.toList) := rfl
    have lines : Text.newlines (first.toList ++ '\n' :: second.toList) =
        Text.newlines first.toList + (1 + Text.newlines second.toList) := by
      rw [Text.newlines_append, Nat.add_comm 1]
      exact congrArg _ List.count_cons_self
    have ending : (Token.ending (1 + Text.newlines second.toList)).later
        (Text.newlines first.toList + 1) =
        .ending (1 + Text.newlines (first.toList ++ '\n' :: second.toList)) := by
      have line : 1 + Text.newlines second.toList + (Text.newlines first.toList + 1) =
          1 + (Text.newlines first.toList + (1 + Text.newlines second.toList)) := by omega
      rw [lines]
      exact congrArg Token.ending line
    rw [Scan.words_append, Piece.text_allOf, after, later, List.map_append, List.map_singleton, ending,
      List.append_assoc]

theorem tokenize_behind {first second : String} {tokens all : List Token}
    (one : tokenize first = .ok tokens) (both : tokenize (first ++ "\n" ++ second) = .ok all) :
    ∃ others, tokenize second = .ok others := by
  obtain ⟨sound, -⟩ := tokenize_eq_ok.mp one
  obtain ⟨sound', -⟩ := tokenize_eq_ok.mp both
  rw [text_join, Piece.allOf_join fun contents member => nomatch sound _ member] at sound'
  refine ⟨_, tokenize_eq_ok.mpr ⟨fun piece member => sound' piece ?_, rfl⟩⟩
  exact List.mem_append_right _ (List.mem_cons_of_mem _ member)

end LoxMachine
