import LoxMachine.Number.Digits

namespace LoxMachine.Number

inductive RangeError where
  | overflow
deriving DecidableEq

def precision : Nat := 28

def maxExponent : Int := 999999

def leastExponent : Int := -1000026

def topExponent : Int := maxExponent - precision + 1

/-- The whole number nearest to `n / d`, for positive `d`; of two, the even one. -/
def nearestEven (n d : Nat) : Nat :=
  let quotient := n / d
  let twice := 2 * (n % d)
  if d < twice ∨ (d = twice ∧ quotient % 2 = 1) then quotient + 1 else quotient

def dropZeros : Nat → Nat → Int → Nat × Int
  | 0, c, e => (c, e)
  | k + 1, c, e => if c % 10 = 0 then dropZeros k (c / 10) (e + 1) else (c, e)

def lastPlace (first : Int) : Int := max (first - precision + 1) leastExponent

/-- The exponent of a zero that would have the exponent `ideal`, as near as the range allows. -/
def zeroExponent (ideal : Int) : Int := max leastExponent (min ideal maxExponent)

/--
The exact result `± n / d · 10 ^ e` as a number. An exact one takes the exponent nearest to `ideal`
that its digits allow; an inexact one keeps every place it can. A result whose first digit stands
more than one place below the last place there is becomes zero without a look at its digits.
-/
def rounded (negative : Bool) (n d : Nat) (e ideal : Int) : Except RangeError Number :=
  if n = 0 then .ok ⟨negative, 0, zeroExponent ideal⟩
  else
    let first := leadingExponent n d + e
    let place := lastPlace first
    if topExponent < place then .error .overflow
    else if first < leastExponent - 1 then .ok ⟨negative, 0, leastExponent⟩
    else
      let num := n * powerOfTen (e - place).toNat
      let den := d * powerOfTen (place - e).toNat
      let c := nearestEven num den
      if c = powerOfTen precision then
        if topExponent < place + 1 then .error .overflow
        else .ok ⟨negative, powerOfTen (precision - 1), place + 1⟩
      else if num % den = 0 then
        let (c, place) := dropZeros (ideal - place).toNat c place
        .ok ⟨negative, c, place⟩
      else .ok ⟨negative, c, place⟩

end LoxMachine.Number
