import LoxMachine.Token.Basic

namespace LoxMachine

/-- A stretch of source text of one sort. -/
inductive Piece where
  | number (whole fraction : List Char)
  | string (contents : List Char)
  | unclosedString (contents : List Char)
  | word (letters : List Char)
  | symbol (symbol : Symbol)
  | comment (text : List Char)
  | newline
  | blanks (text : List Char)
  | stray (c : Char)
deriving DecidableEq

namespace Piece

def isDigit (c : Char) : Bool := '0' ≤ c && c ≤ '9'

def isWordStart (c : Char) : Bool :=
  ('A' ≤ c && c ≤ 'Z') || ('a' ≤ c && c ≤ 'z') || c == '_'

def isWordPart (c : Char) : Bool := isWordStart c || isDigit c

def isBlank (c : Char) : Bool := c == ' ' || c == '\t' || c == '\r'

def text : Piece → List Char
  | number whole [] => whole
  | number whole fraction => whole ++ '.' :: fraction
  | string contents => '"' :: contents ++ ['"']
  | unclosedString contents => '"' :: contents
  | word letters => letters
  | symbol s => s.spelling.toList
  | comment text => '/' :: '/' :: text
  | newline => ['\n']
  | blanks text => text
  | stray c => [c]

/-- A number at the front of a text that begins with a digit. -/
def readNumber (cs : List Char) : Piece × List Char :=
  let whole := cs.takeWhile isDigit
  match cs.dropWhile isDigit with
  | '.' :: rest =>
    match rest.takeWhile isDigit with
    | [] => (number whole [], '.' :: rest)
    | fraction => (number whole fraction, rest.dropWhile isDigit)
  | rest => (number whole [], rest)

/-- A string, after its opening quote. It ends at the next quote, on whatever line. -/
def readString (cs : List Char) : Piece × List Char :=
  let contents := cs.takeWhile (· != '"')
  match cs.dropWhile (· != '"') with
  | _ :: rest => (string contents, rest)
  | [] => (unclosedString contents, [])

/-- The symbol at the front of a text; of two, the longer. -/
def readSymbol : List Char → Option (Symbol × List Char)
  | '!' :: '=' :: rest => some (.bangEqual, rest)
  | '=' :: '=' :: rest => some (.equalEqual, rest)
  | '>' :: '=' :: rest => some (.greaterEqual, rest)
  | '<' :: '=' :: rest => some (.lessEqual, rest)
  | '!' :: rest => some (.bang, rest)
  | '=' :: rest => some (.equal, rest)
  | '>' :: rest => some (.greater, rest)
  | '<' :: rest => some (.less, rest)
  | '-' :: rest => some (.minus, rest)
  | '+' :: rest => some (.plus, rest)
  | '/' :: rest => some (.slash, rest)
  | '*' :: rest => some (.star, rest)
  | '(' :: rest => some (.leftParen, rest)
  | ')' :: rest => some (.rightParen, rest)
  | '{' :: rest => some (.leftBrace, rest)
  | '}' :: rest => some (.rightBrace, rest)
  | ',' :: rest => some (.comma, rest)
  | '.' :: rest => some (.dot, rest)
  | ';' :: rest => some (.semicolon, rest)
  | _ => none

/-- The piece at the front of the text `c :: cs`, and the text after it. -/
def read (c : Char) (cs : List Char) : Piece × List Char :=
  if isDigit c then readNumber (c :: cs)
  else if c == '"' then readString cs
  else if isWordStart c then
    (word (c :: cs.takeWhile isWordPart), cs.dropWhile isWordPart)
  else if c == '\n' then (newline, cs)
  else if isBlank c then
    (blanks (c :: cs.takeWhile isBlank), cs.dropWhile isBlank)
  else if c == '/' && cs.head? == some '/' then
    (comment (cs.tail.takeWhile (· != '\n')), cs.tail.dropWhile (· != '\n'))
  else
    match readSymbol (c :: cs) with
    | some (s, rest) => (symbol s, rest)
    | none => (stray c, cs)

def firstOf : Nat → List Char → List Piece
  | 0, _ => []
  | _ + 1, [] => []
  | n + 1, c :: cs =>
    let (piece, rest) := read c cs
    piece :: firstOf n rest

/-- All pieces of a text, in order; no piece is empty, so there are at most as many as characters. -/
def allOf (cs : List Char) : List Piece := firstOf cs.length cs

end Piece

end LoxMachine
