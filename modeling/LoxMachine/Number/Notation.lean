import LoxMachine.Number.Rounding

namespace LoxMachine.Number

def coefficientDigits (a : Number) : List Char := Nat.toDigits 10 a.coefficient

def withSign (a : Number) (digits : List Char) : List Char :=
  if a.negative then '-' :: digits else digits

def pointed (places : Nat) (digits : List Char) : List Char :=
  let digits := List.replicate (places + 1 - digits.length) '0' ++ digits
  let whole := digits.length - places
  digits.take whole ++ '.' :: digits.drop whole

def fixedDigits (a : Number) : List Char :=
  if a.exponent < 0 then pointed (-a.exponent).toNat a.coefficientDigits
  else if a.isZero then ['0']
  else a.coefficientDigits ++ List.replicate a.exponent.toNat '0'

def fixed (a : Number) : String := String.ofList (a.withSign a.fixedDigits)

/-- The fixed form as a program prints it: a zero has no sign and at most the places in range. -/
def printed (a : Number) : String :=
  if a.isZero then
    fixed ⟨false, 0, zeroExponent a.exponent⟩
  else a.fixed

def exponentMark (e : Int) : List Char :=
  'E' :: (if e < 0 then '-' else '+') :: Nat.toDigits 10 e.natAbs

/--
The form with an exponent where there is need for one: if the number has zeros before its point
that are no digits of it, or more than five zeros after the point before the first digit.
-/
def scientific (a : Number) : String :=
  if a.exponent ≤ 0 ∧ -6 ≤ a.leading then a.fixed
  else
    let digits := match a.coefficientDigits with
      | [d] => [d]
      | ds => ds.take 1 ++ '.' :: ds.drop 1
    String.ofList (a.withSign (digits ++ exponentMark a.leading))

end LoxMachine.Number
