import LoxMachine.Program.Basic
import LoxMachine.Grammar.Expectation

namespace LoxMachine

/-- The tokens that are left and the number of the next node. -/
structure Cursor where
  rest : List Token
  nextId : NodeId

namespace Cursor

def current (c : Cursor) : Token := c.rest.head?.getD (.ending 0)

def next (c : Cursor) : Cursor :=
  match c.rest with
  | t :: rest => if t.isEnding then c else { c with rest }
  | [] => c

end Cursor

/-- A phrase of the grammar: what it builds from the tokens at its front. An error keeps the place
where the reading stopped. -/
abbrev Reader (α : Type) := EStateM SyntaxError Cursor α

namespace Reader

variable {α : Type}

def current : Reader Token := fun c => .ok c.current c

def take : Reader Token := fun c => .ok c.current c.next

def unexpected (expected : Expectation) (found : Token) : Reader α :=
  fun c => .error (.unexpected expected found) c

def takeIf (test : Token → Bool) : Reader Bool := do
  if test (← current) then
    let _ ← take
    return true
  else return false

def accept (s : Symbol) : Reader Bool := takeIf (·.isSymbol s)

def acceptWord (k : Keyword) : Reader Bool := takeIf (·.isKeyword k)

def expect (s : Symbol) (place : Place) : Reader Token := do
  let t ← current
  if t.isSymbol s then take else unexpected (.symbol s place) t

def expectName (role : NameRole) : Reader Token := do
  let t ← current
  if t.kind = .identifier then take else unexpected (.name role) t

def node (build : NodeId → α) : Reader α :=
  fun c => .ok (build c.nextId) { c with nextId := c.nextId + 1 }

def repeatUpTo (test : Token → Bool) (step : α → Reader α) : Nat → α → Reader α
  | 0, a => pure a
  | n + 1, a => do
    if test (← current) then
      let a ← step a
      repeatUpTo test step n a
    else pure a

/--
Goes on with `step` while the current token passes the test. Every step takes a token, so there are
at most as many as tokens left.
-/
def repeatWhile (test : Token → Bool) (step : α → Reader α) (a : α) : Reader α :=
  fun c => repeatUpTo test step c.rest.length a c

def many (test : Token → Bool) (item : Reader α) : Reader (List α) := do
  let items ← repeatWhile test (fun items => return (← item) :: items) []
  return items.reverse

def separated (item : Reader α) : Reader (List α) := do
  let first ← item
  let others ← many (·.isSymbol .comma) (do let _ ← take; item)
  return first :: others

def separatedBefore (closing : Symbol) (item : Reader α) : Reader (List α) := do
  if (← current).isSymbol closing then return [] else separated item

def optionalBefore (closing : Symbol) (item : Reader α) : Reader (Option α) := do
  if (← current).isSymbol closing then return none else return some (← item)

end Reader

end LoxMachine
