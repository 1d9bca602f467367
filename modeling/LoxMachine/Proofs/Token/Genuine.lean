import LoxMachine.Token.Scan
import LoxMachine.Proofs.Program.Formed

namespace LoxMachine

/-- A token whose kind is that of its spelling, as far as words are concerned. -/
def Token.Genuine (t : Token) : Prop :=
  match t.kind with
  | .identifier => Keyword.ofSpelling? t.lexeme = none
  | .keyword k => t.lexeme = k.spelling
  | .symbol _ | .string _ | .number _ | .endOfInput => True

theorem Token.Genuine.ordinary {t : Token} (genuine : t.Genuine) (name : t.kind = .identifier) :
    t.Ordinary := by
  simp only [Token.Genuine, name] at genuine
  constructor
  · intro same
    rw [same] at genuine
    exact absurd genuine (by decide)
  · intro same
    rw [same] at genuine
    exact absurd genuine (by decide)

theorem Token.Genuine.spelling {t : Token} {k : Keyword} (genuine : t.Genuine)
    (word : t.kind = .keyword k) : t.lexeme = k.spelling := by
  simpa only [Token.Genuine, word] using genuine

theorem genuine_ofWord (word : String) (line : Nat) :
    (Token.mk (.ofWord word) word line).Genuine := by
  unfold Token.Genuine Kind.ofWord
  cases found : Keyword.ofSpelling? word with
  | none => rfl
  | some k =>
    have spelled := List.find?_some found
    exact (beq_iff_eq.mp spelled).symm

theorem genuine_reading (line : Nat) (piece : Piece) (t : Token)
    (read : piece.reading line = .token t) : t.Genuine := by
  cases piece with
  | word letters =>
    cases read
    exact genuine_ofWord _ _
  | number | string | symbol =>
    cases read
    exact True.intro
  | unclosedString | stray | comment | newline | blanks => cases read

section Texts

variable {P : Token → Prop} (each : ∀ line piece t, Piece.reading line piece = .token t → P t)
  (last : ∀ line, P (.ending line))

include each last in
theorem all_ofPieces (pieces : List Piece) (line : Nat) :
    ∀ t ∈ (Scan.ofPieces line pieces).tokens, P t := by
  induction pieces generalizing line with
  | nil =>
    intro t member
    rw [Scan.ofPieces, List.mem_singleton] at member
    subst member
    exact last line
  | cons piece rest ih =>
    intro t member
    rw [Scan.ofPieces] at member
    cases read : piece.reading line with
    | token first =>
      rw [read, Scan.add] at member
      rcases List.mem_cons.mp member with rfl | later
      · exact each line piece t read
      · exact ih _ t later
    | fault | nothing =>
      rw [read, Scan.add] at member
      exact ih _ t member

include each last in
theorem all_of_tokenize {source : String} {tokens : List Token}
    (scanned : tokenize source = .ok tokens) : ∀ t ∈ tokens, P t := by
  unfold tokenize at scanned
  simp only at scanned
  split at scanned
  · cases scanned
    exact all_ofPieces each last _ _
  · cases scanned

end Texts

theorem genuine_of_tokenize {source : String} {tokens : List Token}
    (scanned : tokenize source = .ok tokens) : ∀ t ∈ tokens, t.Genuine :=
  all_of_tokenize genuine_reading (fun _ => True.intro) scanned

end LoxMachine
