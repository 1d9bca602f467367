import LoxMachine.Proofs.Token.Longest

namespace LoxMachine

def ScanFault.later (lines : Nat) : ScanFault → ScanFault
  | unexpectedCharacter c line => unexpectedCharacter c (line + lines)
  | unclosedString line => unclosedString (line + lines)

namespace Scan

open Piece Text

def ofText (source : String) : Scan := ofPieces 1 (allOf source.toList)

def result (scan : Scan) : Except (List ScanFault) (List Token) :=
  match scan.faults with
  | [] => .ok scan.tokens
  | faults => .error faults

/-- No string is open at the end. -/
def Closed (scan : Scan) : Prop := ∀ line, .unclosedString line ∉ scan.faults

/-- What is found if the text begins so many lines further down. -/
def later (lines : Nat) (scan : Scan) : Scan :=
  ⟨scan.tokens.map (Token.later lines), scan.faults.map (ScanFault.later lines)⟩

/-- What is found in one text and then in another, with one token for the end of both. -/
def followedBy (first second : Scan) : Scan :=
  ⟨first.tokens.dropLast ++ second.tokens, first.faults ++ second.faults⟩

def ofTexts : List String → Scan
  | [] => ofText ""
  | [text] => ofText text
  | text :: rest => (ofText text).followedBy ((ofTexts rest).later (newlines text.toList + 1))

theorem tokenize_eq_result (source : String) : tokenize source = (ofText source).result := rfl

theorem tokenize_ok_iff {source : String} {tokens : List Token} :
    tokenize source = .ok tokens ↔
      (ofText source).faults = [] ∧ tokens = (ofText source).tokens := by
  rw [tokenize_eq_result, result]
  split
  · rename_i none
    exact ⟨fun same => ⟨none, (Except.ok.inj same).symm⟩, fun same => by rw [same.2]⟩
  · rename_i some
    exact iff_of_false nofun fun same => some same.1

theorem tokens_ofPieces_ne_nil (line : Nat) (pieces : List Piece) :
    (ofPieces line pieces).tokens ≠ [] := by
  rw [tokens_ofPieces]
  exact List.concat_ne_nil _ _

theorem add_followedBy {first : Scan} (some_token : first.tokens ≠ []) (second : Scan)
    (reading : Reading) :
    (first.followedBy second).add reading = (first.add reading).followedBy second := by
  cases reading with
  | token t =>
    unfold followedBy add
    rw [List.dropLast_cons_of_ne_nil some_token]
    rfl
  | fault | nothing => rfl

theorem ofPieces_append (line : Nat) (first second : List Piece) :
    ofPieces line (first ++ second) =
      (ofPieces line first).followedBy
        (ofPieces (line + newlines (first.flatMap text)) second) := by
  induction first generalizing line with
  | nil => rfl
  | cons piece rest ih =>
    rw [List.cons_append, ofPieces, ih, add_followedBy (tokens_ofPieces_ne_nil _ rest), ofPieces,
      List.flatMap_cons, newlines_append, Nat.add_assoc]

theorem ofPieces_later (line lines : Nat) (pieces : List Piece) :
    ofPieces (line + lines) pieces = (ofPieces line pieces).later lines := by
  induction pieces generalizing line with
  | nil => rfl
  | cons piece rest ih =>
    rw [ofPieces, ofPieces, Nat.add_right_comm, ih]
    cases piece <;> rfl

theorem closed_ofPieces {line : Nat} {pieces : List Piece} :
    (ofPieces line pieces).Closed ↔ ∀ contents, unclosedString contents ∉ pieces := by
  induction pieces generalizing line with
  | nil => exact iff_of_true nofun nofun
  | cons piece rest ih =>
    have behind : (ofPieces (line + newlines piece.text) rest).Closed ↔ _ := ih
    rw [ofPieces]
    cases piece with
    | unclosedString contents =>
      exact iff_of_false (fun closed => closed line List.mem_cons_self)
        fun none => none contents List.mem_cons_self
    | number | string | word | symbol | comment | newline | blanks | stray =>
      simpa [Closed, add, reading] using behind

theorem tokens_ofText (source : String) :
    ∃ words, (ofText source).tokens = words ++ [.ending (1 + newlines source.toList)] ∧
      ∀ t ∈ words, t.isEnding = false := by
  refine ⟨words 1 (allOf source.toList), ?_, not_ending_of_words⟩
  rw [ofText, tokens_ofPieces, text_allOf]

theorem ofText_join {first second : String} (closed : (ofText first).Closed) :
    ofText (first ++ "\n" ++ second) =
      (ofText first).followedBy ((ofText second).later (newlines first.toList + 1)) := by
  have behind : ofPieces (1 + newlines first.toList) (newline :: allOf second.toList) =
      (ofText second).later (newlines first.toList + 1) :=
    ofPieces_later 1 (newlines first.toList + 1) (allOf second.toList)
  rw [ofText, text_join, allOf_join (closed_ofPieces.mp closed), ofPieces_append, text_allOf,
    behind]
  rfl

/-- Lines are scanned together as they are scanned one by one, if no string is open at the end of
any but the last of them. -/
theorem ofText_lines {lines : List String}
    (closed : ∀ text ∈ lines.dropLast, (ofText text).Closed) :
    ofText ("\n".intercalate lines) = ofTexts lines := by
  induction lines with
  | nil => rfl
  | cons text rest ih =>
    cases rest with
    | nil => rw [String.intercalate_singleton, ofTexts]
    | cons next others =>
      obtain ⟨here, behind⟩ := List.forall_mem_cons.mp closed
      rw [String.intercalate_cons_cons, ofText_join here, ih behind]
      rfl

theorem faults_ofTexts {lines : List String} (sound : (ofTexts lines).faults = []) :
    ∀ text ∈ lines, (ofText text).faults = [] := by
  induction lines with
  | nil => nofun
  | cons text rest ih =>
    cases rest with
    | nil => exact List.forall_mem_singleton.mpr sound
    | cons next others =>
      obtain ⟨here, behind⟩ := List.append_eq_nil_iff.mp sound
      exact List.forall_mem_cons.mpr ⟨here, ih (List.map_eq_nil_iff.mp behind)⟩

end Scan

open Text

/-- The scan of a text with another one behind a newline, told from the scans of both. -/
structure ScannedApart (first second : String) : Prop where
  /-- The tokens are those of the first text without the one for its end, and behind them those of
  the second on later lines. -/
  tokens : ∃ words, (Scan.ofText first).tokens = words ++ [.ending (1 + newlines first.toList)] ∧
    (∀ t ∈ words, t.isEnding = false) ∧
    (Scan.ofText (first ++ "\n" ++ second)).tokens =
      words ++ (Scan.ofText second).tokens.map (Token.later (newlines first.toList + 1))
  faults : (Scan.ofText (first ++ "\n" ++ second)).faults =
    (Scan.ofText first).faults ++
      (Scan.ofText second).faults.map (ScanFault.later (newlines first.toList + 1))
  accepted : ∀ all, tokenize (first ++ "\n" ++ second) = .ok all ↔
    ∃ words others, tokenize first = .ok (words ++ [.ending (1 + newlines first.toList)]) ∧
      tokenize second = .ok others ∧
      all = words ++ others.map (Token.later (newlines first.toList + 1))
  rejected : ∀ faults, tokenize (first ++ "\n" ++ second) = .error faults ↔
    faults ≠ [] ∧ faults = (Scan.ofText first).faults ++
      (Scan.ofText second).faults.map (ScanFault.later (newlines first.toList + 1))

theorem newlines_join (first second : String) :
    newlines (first ++ "\n" ++ second).toList =
      newlines first.toList + 1 + newlines second.toList := by
  have behind : newlines ('\n' :: second.toList) = newlines second.toList + 1 :=
    List.count_cons_self
  rw [text_join, newlines_append, behind]
  omega

theorem scannedApart_of_found {first second : String} {words : List Token}
    (ends : (Scan.ofText first).tokens = words ++ [.ending (1 + newlines first.toList)])
    (tokens : (Scan.ofText (first ++ "\n" ++ second)).tokens =
      words ++ (Scan.ofText second).tokens.map (Token.later (newlines first.toList + 1)))
    (faults : (Scan.ofText (first ++ "\n" ++ second)).faults = (Scan.ofText first).faults ++
      (Scan.ofText second).faults.map (ScanFault.later (newlines first.toList + 1))) :
    ScannedApart first second := by
  obtain ⟨others, same, plain⟩ := Scan.tokens_ofText first
  rw [ends, List.append_left_inj] at same
  refine ⟨⟨words, ends, same ▸ plain, tokens⟩, faults, fun all => ?_, fun others => ?_⟩
  · rw [Scan.tokenize_ok_iff, faults, List.append_eq_nil_iff, List.map_eq_nil_iff, tokens]
    constructor
    · rintro ⟨⟨one, two⟩, rfl⟩
      exact ⟨words, _, Scan.tokenize_ok_iff.mpr ⟨one, ends.symm⟩,
        Scan.tokenize_ok_iff.mpr ⟨two, rfl⟩, rfl⟩
    · rintro ⟨front, behind, one, two, rfl⟩
      obtain ⟨sound, same⟩ := Scan.tokenize_ok_iff.mp one
      obtain ⟨sound', rfl⟩ := Scan.tokenize_ok_iff.mp two
      rw [ends, List.append_left_inj] at same
      exact ⟨⟨sound, sound'⟩, by rw [same]⟩
  · rw [tokenize_eq_error, ← faults]
    rfl

theorem scannedApart_of_closed {first second : String} (closed : (Scan.ofText first).Closed) :
    ScannedApart first second := by
  obtain ⟨words, ends, -⟩ := Scan.tokens_ofText first
  have whole := (Scan.ofText_join closed : Scan.ofText (first ++ "\n" ++ second) = _)
  refine scannedApart_of_found ends ?_ ?_
  · rw [whole, Scan.followedBy, ends, List.dropLast_concat]
    rfl
  · rw [whole]
    rfl

end LoxMachine
