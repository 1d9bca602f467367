import LoxMachine.Proofs.Token.Genuine

namespace LoxMachine

/-- The spelling of the tokens of a kind, where the kind settles it. -/
def Kind.spelling : Kind → Option String
  | .symbol s => some s.spelling
  | .keyword k => some k.spelling
  | .string contents => some ("\"" ++ contents ++ "\"")
  | .endOfInput => some ""
  | .identifier | .number _ => none

def Token.Spelled (t : Token) : Prop := ∀ text, t.kind.spelling = some text → t.lexeme = text

theorem spelled_reading (line : Nat) (piece : Piece) (t : Token)
    (read : piece.reading line = .token t) : t.Spelled := by
  intro text settled
  cases piece with
  | word letters =>
    cases read
    have genuine := genuine_ofWord (String.ofList letters) line
    change (Kind.ofWord (String.ofList letters)).spelling = some text at settled
    cases found : Kind.ofWord (String.ofList letters) with
    | keyword k =>
      rw [found] at settled genuine
      cases settled
      exact genuine
    | identifier =>
      rw [found] at settled
      cases settled
    | symbol | string | number | endOfInput =>
      unfold Kind.ofWord at found
      split at found <;> cases found
  | number =>
    cases read
    cases settled
  | string contents =>
    cases read
    cases settled
    rw [← String.toList_inj]
    simp [Piece.text]
  | symbol s =>
    cases read
    cases settled
    exact String.ofList_toList
  | unclosedString | stray | comment | newline | blanks => cases read

theorem spelled_of_tokenize {source : String} {tokens : List Token}
    (scanned : tokenize source = .ok tokens) : ∀ t ∈ tokens, t.Spelled := by
  refine all_of_tokenize spelled_reading (fun line text settled => ?_) scanned
  cases settled
  rfl

end LoxMachine
