import LoxMachine.Token.Piece
import LoxMachine.Text.Lines

namespace LoxMachine

inductive ScanFault where
  | unexpectedCharacter (c : Char) (line : Nat)
  | unclosedString (line : Nat)
deriving DecidableEq

def ScanFault.message : ScanFault → String
  | unexpectedCharacter c line => s!"Unexpected character '{c}' on line {line}"
  | unclosedString line => s!"Unterminated string on line {line}"

/-- What a piece amounts to. -/
inductive Reading where
  | token (token : Token)
  | fault (fault : ScanFault)
  | nothing

def Kind.ofWord (word : String) : Kind :=
  match Keyword.ofSpelling? word with
  | some k => .keyword k
  | none => .identifier

def Piece.reading (line : Nat) (piece : Piece) : Reading :=
  let lexeme := String.ofList piece.text
  match piece with
  | number whole fraction => .token ⟨.number (.ofDigits whole fraction), lexeme, line⟩
  | string contents => .token ⟨.string (String.ofList contents), lexeme, line⟩
  | word _ => .token ⟨.ofWord lexeme, lexeme, line⟩
  | symbol s => .token ⟨.symbol s, lexeme, line⟩
  | unclosedString _ => .fault (.unclosedString line)
  | stray c => .fault (.unexpectedCharacter c line)
  | comment _ | newline | blanks _ => .nothing

/-- The tokens and the faults of a text. -/
structure Scan where
  tokens : List Token
  faults : List ScanFault

namespace Scan

def add (scan : Scan) : Reading → Scan
  | .token t => { scan with tokens := t :: scan.tokens }
  | .fault f => { scan with faults := f :: scan.faults }
  | .nothing => scan

def ofPieces : Nat → List Piece → Scan
  | line, [] => ⟨[.ending line], []⟩
  | line, piece :: rest =>
    (ofPieces (line + Text.newlines piece.text) rest).add (piece.reading line)

end Scan

/-- The tokens of a source text, closed by the token for its end, or everything wrong with it. -/
def tokenize (source : String) : Except (List ScanFault) (List Token) :=
  let scan := Scan.ofPieces 1 (Piece.allOf source.toList)
  match scan.faults with
  | [] => .ok scan.tokens
  | faults => .error faults

end LoxMachine
