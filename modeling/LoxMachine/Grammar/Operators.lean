import LoxMachine.Grammar.Reader

namespace LoxMachine.Grammar

open Reader

structure Tier where
  accepts : Token → Bool
  build : NodeId → Expr → Token → Expr → Expr

def logicalTier (word : Keyword) : Tier := ⟨(·.isKeyword word), .logical⟩

def binaryTier (symbols : List Symbol) : Tier :=
  ⟨fun t => symbols.any t.isSymbol, .binary⟩

def tiers : List Tier := [
  logicalTier .orWord,
  logicalTier .andWord,
  binaryTier [.bangEqual, .equalEqual],
  binaryTier [.greater, .greaterEqual, .less, .lessEqual],
  binaryTier [.plus, .minus],
  binaryTier [.star, .slash]]

def leftToRight (tier : Tier) (operand : Reader Expr) : Reader Expr := do
  let first ← operand
  repeatWhile tier.accepts (fun left => do
    let operator ← take
    let right ← operand
    node (tier.build · left operator right)) first

def operatorsOver (operand : Reader Expr) : Reader Expr := tiers.foldr leftToRight operand

end LoxMachine.Grammar
