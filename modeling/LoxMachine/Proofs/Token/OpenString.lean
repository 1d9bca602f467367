import LoxMachine.Proofs.Token.Lines

namespace LoxMachine

open Text

def ScanFault.line : ScanFault → Nat
  | unexpectedCharacter _ line | unclosedString line => line

namespace Piece

section Strings

variable {contents : List Char} (unquoted : '"' ∉ contents)

include unquoted

theorem not_quote : ∀ c ∈ contents, (c != '"') = true := by
  intro c member
  rw [bne_iff_ne]
  rintro rfl
  exact unquoted member

theorem allOf_string (rest : List Char) :
    allOf ('"' :: (contents ++ '"' :: rest)) = string contents :: allOf rest := by
  have stops : ('"' != '"') = false := by decide
  obtain ⟨run, after⟩ := takeWhile_run (p := (· != '"')) stops (not_quote unquoted) rest
  have found : read '"' (contents ++ '"' :: rest) = (string contents, rest) := by
    change readString _ = _
    unfold readString
    rw [run, after]
  rw [allOf_cons, found]

theorem allOf_unclosed : allOf ('"' :: contents) = [unclosedString contents] := by
  have found : read '"' contents = (unclosedString contents, []) := by
    change readString _ = _
    unfold readString
    rw [List.takeWhile_eq_self_iff.mpr (not_quote unquoted),
      List.dropWhile_eq_nil_iff.mpr (not_quote unquoted)]
  rw [allOf_cons, found]
  rfl

end Strings

theorem allOf_open {cs : List Char} (rest : List Char)
    (still_open : ¬ ∀ contents, unclosedString contents ∉ allOf cs) :
    ∃ before contents, allOf cs = before ++ [unclosedString contents] ∧ '"' ∉ contents ∧
      allOf (cs ++ '\n' :: rest) = before ++ allOf ('"' :: (contents ++ '\n' :: rest)) := by
  induction cs using allOf_induction with
  | nil => exact absurd (fun _ => nofun) still_open
  | cons c cs ih =>
    by_cases here : ∃ contents, (read c cs).1 = unclosedString contents
    · obtain ⟨contents, unclosed⟩ := here
      have faulty : (read c cs).1.isFaulty = true := by rw [unclosed]; rfl
      rcases faulty_read faulty with ⟨rfl, unquoted, -⟩ | ⟨-, -, same⟩
      · exact ⟨[], cs, allOf_unclosed unquoted, unquoted, rfl⟩
      · rw [same] at unclosed
        cases unclosed
    · have closed : ∀ contents, (read c cs).1 ≠ unclosedString contents :=
        fun contents same => here ⟨contents, same⟩
      have later : ¬ ∀ contents, unclosedString contents ∉ allOf (read c cs).2 := by
        intro none
        refine still_open fun contents member => ?_
        rw [allOf_cons] at member
        rcases List.mem_cons.mp member with same | behind
        · exact closed contents same.symm
        · exact none contents behind
      obtain ⟨before, contents, pieces, unquoted, whole⟩ := ih later
      refine ⟨(read c cs).1 :: before, contents, ?_, unquoted, ?_⟩
      · rw [allOf_cons, pieces, List.cons_append]
      · rw [List.cons_append, allOf_cons, read_stop c cs rest closed, behind, whole,
          List.cons_append]

end Piece

namespace Scan

open Piece

theorem line_le_of_fault {line : Nat} {pieces : List Piece} {fault : ScanFault}
    (member : fault ∈ (ofPieces line pieces).faults) : line ≤ fault.line := by
  induction pieces generalizing line with
  | nil => cases member
  | cons piece rest ih =>
    have later : fault ∈ (ofPieces (line + newlines piece.text) rest).faults → line ≤ fault.line :=
      fun behind => Nat.le_trans (Nat.le_add_right _ _) (ih behind)
    rw [ofPieces] at member
    cases piece with
    | unclosedString | stray =>
      rcases List.mem_cons.mp member with rfl | behind
      · exact Nat.le_refl _
      · exact later behind
    | number | string | word | symbol | comment | newline | blanks => exact later member

end Scan

/-- A text with blanks and comments only, and with no quote among them. -/
structure Silent (source : String) : Prop where
  unquoted : '"' ∉ source.toList
  tokens : (Scan.ofText source).tokens = [.ending (1 + newlines source.toList)]
  faults : (Scan.ofText source).faults = []

section Open

variable {first second : String} {before : List Piece} {contents : List Char}
  (pieces : Piece.allOf first.toList = before ++ [.unclosedString contents])
  (unquoted : '"' ∉ contents)
  (whole : Piece.allOf (first.toList ++ '\n' :: second.toList) =
    before ++ Piece.allOf ('"' :: (contents ++ '\n' :: second.toList)))

include pieces in
theorem ofText_of_open : Scan.ofText first = (Scan.ofPieces 1 before).followedBy
    ⟨[.ending (1 + newlines (before.flatMap Piece.text) + newlines ('"' :: contents))],
      [.unclosedString (1 + newlines (before.flatMap Piece.text))]⟩ := by
  rw [Scan.ofText, pieces, Scan.ofPieces_append]
  rfl

include whole in
theorem ofText_behind_open : Scan.ofText (first ++ "\n" ++ second) =
    (Scan.ofPieces 1 before).followedBy (Scan.ofPieces (1 + newlines (before.flatMap Piece.text))
      (Piece.allOf ('"' :: (contents ++ '\n' :: second.toList)))) := by
  rw [Scan.ofText, text_join, whole, Scan.ofPieces_append]

include pieces unquoted whole

theorem unquoted_of_scannedApart (apart : ScannedApart first second) : '"' ∉ second.toList := by
  intro quoted
  obtain ⟨inside, behind, split, inside_unquoted⟩ := List.eq_append_cons_of_mem quoted
  have taken : '"' ∉ contents ++ '\n' :: inside := by
    simp only [List.mem_append, List.mem_cons, not_or]
    exact ⟨unquoted, by decide, inside_unquoted⟩
  have text : '"' :: (contents ++ '\n' :: second.toList) =
      '"' :: ((contents ++ '\n' :: inside) ++ '"' :: behind) := by
    rw [split, List.append_assoc, List.cons_append]
  have faults := apart.faults
  rw [ofText_behind_open whole, ofText_of_open pieces, text, Piece.allOf_string taken] at faults
  simp only [Scan.followedBy, List.append_assoc, List.append_cancel_left_eq] at faults
  -- a fault of the first text would have to stand behind the string, on a later line
  have member : ScanFault.unclosedString (1 + newlines (before.flatMap Piece.text)) ∈
      (Scan.ofPieces (1 + newlines (before.flatMap Piece.text) +
        newlines (Piece.string (contents ++ '\n' :: inside)).text)
          (Piece.allOf behind)).faults := by
    change (Scan.ofPieces (1 + newlines (before.flatMap Piece.text) +
      newlines (Piece.string (contents ++ '\n' :: inside)).text) (Piece.allOf behind)).faults = _
        at faults
    rw [faults]
    exact List.mem_cons_self
  have lines : _ ≤ 1 + newlines (before.flatMap Piece.text) := Scan.line_le_of_fault member
  have later : 0 < newlines (Piece.string (contents ++ '\n' :: inside)).text := by
    refine List.count_pos_iff.mpr ?_
    simp [Piece.text]
  omega

/-- The string goes on to the end of both texts, so the second text must not have anything to
find. -/
theorem silent_of_scannedApart (apart : ScannedApart first second) : Silent second := by
  have silent := unquoted_of_scannedApart pieces unquoted whole apart
  have taken : '"' ∉ contents ++ '\n' :: second.toList := by
    simp only [List.mem_append, List.mem_cons, not_or]
    exact ⟨unquoted, by decide, silent⟩
  have both := ofText_behind_open whole
  rw [Piece.allOf_unclosed taken] at both
  obtain ⟨words, ends, -, tokens⟩ := apart.tokens
  obtain ⟨others, rest, -⟩ := Scan.tokens_ofText second
  -- on both sides stand as many tokens, and as many faults
  have faults := congrArg List.length apart.faults
  have count := congrArg List.length ends
  have count' := congrArg List.length tokens
  rw [both, ofText_of_open pieces] at faults
  rw [ofText_of_open pieces] at count
  rw [both, rest] at count'
  simp only [Scan.followedBy, Scan.ofPieces, Piece.reading, Scan.add, List.length_append,
    List.length_map, List.length_cons, List.length_nil] at faults count count'
  have none_left : others = [] := List.length_eq_zero_iff.mp (by omega)
  exact ⟨silent, by rw [rest, none_left]; rfl, List.length_eq_zero_iff.mp (by omega)⟩

theorem scannedApart_of_silent (silent : Silent second) : ScannedApart first second := by
  have taken : '"' ∉ contents ++ '\n' :: second.toList := by
    simp only [List.mem_append, List.mem_cons, not_or]
    exact ⟨unquoted, by decide, silent.unquoted⟩
  have both := ofText_behind_open whole
  rw [Piece.allOf_unclosed taken] at both
  obtain ⟨words, ends, -⟩ := Scan.tokens_ofText first
  have front : (Scan.ofPieces 1 before).tokens.dropLast = words := by
    have same := congrArg List.dropLast ends
    rwa [ofText_of_open pieces, Scan.followedBy, List.dropLast_concat, List.dropLast_concat] at same
  refine scannedApart_of_found ends ?_ ?_
  · obtain ⟨others, rest, -⟩ := Scan.tokens_ofText (first ++ "\n" ++ second)
    have same := congrArg List.dropLast rest
    rw [both, Scan.followedBy, front] at same
    simp only [Scan.ofPieces, Piece.reading, Scan.add, List.dropLast_concat] at same
    have line : 1 + (newlines first.toList + 1 + newlines second.toList) =
        1 + newlines second.toList + (newlines first.toList + 1) := by omega
    rw [rest, ← same, newlines_join, line, silent.tokens]
    rfl
  · rw [both, ofText_of_open pieces, silent.faults, List.map_nil, List.append_nil]
    rfl

end Open

/-- A text is scanned apart from what is behind it exactly if no string is open at its end, or if
there is nothing to find behind it. -/
theorem scannedApart_iff {first second : String} :
    ScannedApart first second ↔ (Scan.ofText first).Closed ∨ Silent second := by
  by_cases closed : (Scan.ofText first).Closed
  · exact iff_of_true (scannedApart_of_closed closed) (.inl closed)
  · have still_open := closed
    rw [Scan.ofText, Scan.closed_ofPieces] at still_open
    obtain ⟨before, contents, pieces, unquoted, whole⟩ := Piece.allOf_open second.toList still_open
    constructor
    · exact fun apart => .inr (silent_of_scannedApart pieces unquoted whole apart)
    · exact fun silent => scannedApart_of_silent pieces unquoted whole (silent.resolve_left closed)

end LoxMachine
