
namespace LoxMachine.Text

def foldLineEnds : List Char → List Char
  | '\r' :: '\n' :: rest => '\n' :: foldLineEnds rest
  | c :: rest => (if c = '\r' then '\n' else c) :: foldLineEnds rest
  | [] => []

def ofFileBytes (bytes : ByteArray) : Option String :=
  (String.fromUTF8? bytes).map fun s => String.ofList (foldLineEnds s.toList)

def newlines (cs : List Char) : Nat := cs.count '\n'

end LoxMachine.Text
