
namespace LoxMachine

def powerOfTen (k : Nat) : Nat := Nat.pow 10 k

/-- The number `± coefficient · 10 ^ exponent`. -/
structure Number where
  negative : Bool
  coefficient : Nat
  exponent : Int
deriving DecidableEq, Inhabited

namespace Number

def ofNat (n : Nat) : Number := ⟨false, n, 0⟩

def isZero (a : Number) : Bool := a.coefficient == 0

def signed (a : Number) : Int :=
  if a.negative then -(a.coefficient : Int) else a.coefficient

def scaledTo (a : Number) (e : Int) : Int := a.signed * powerOfTen (a.exponent - e).toNat

def commonExponent (a b : Number) : Int := min a.exponent b.exponent

def digitValue (c : Char) : Nat := c.toNat - '0'.toNat

def natOfDigits (digits : List Char) : Nat :=
  digits.foldl (fun n c => 10 * n + digitValue c) 0

def ofDigits (whole fraction : List Char) : Number :=
  ⟨false, natOfDigits (whole ++ fraction), -(fraction.length : Int)⟩

end Number

end LoxMachine
