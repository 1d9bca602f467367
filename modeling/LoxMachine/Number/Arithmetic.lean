import LoxMachine.Number.Rounding

namespace LoxMachine.Number

/--
A summand that lies wholly below this exponent is out of reach of `a`: below every digit of `a` and
two places under the last digit of the sum, it only tells on which side of `a` the sum lies.
-/
def reach (a : Number) : Int := min (a.exponent - 1) (a.leading - precision - 1)

/--
The summand `b` as a sum with `a` sees it. One out of reach counts as a single unit of its sign, and
a zero takes the exponent of the other summand.
-/
def beside (b a : Number) : Number :=
  if b.isZero then { b with exponent := a.exponent }
  else if !a.isZero && b.leading < a.reach then ⟨b.negative, 1, a.reach⟩
  else b

/-- The sum; a zero sum is negative only if both numbers are. -/
def add (a b : Number) : Except RangeError Number :=
  let a' := a.beside b
  let b' := b.beside a'
  let e := a'.commonExponent b'
  let sum := a'.scaledTo e + b'.scaledTo e
  let negative := if sum = 0 then a.negative && b.negative else decide (sum < 0)
  rounded negative sum.natAbs 1 e (a.commonExponent b)

def flip (a : Number) : Number := { a with negative := !a.negative }

def sub (a b : Number) : Except RangeError Number := a.add b.flip

def mul (a b : Number) : Except RangeError Number :=
  let e := a.exponent + b.exponent
  rounded (a.negative != b.negative) (a.coefficient * b.coefficient) 1 e e

def div (a b : Number) : Except RangeError Number :=
  let e := a.exponent - b.exponent
  rounded (a.negative != b.negative) a.coefficient b.coefficient e e

/-- The number with its sign turned; a zero becomes positive. -/
def neg (a : Number) : Except RangeError Number :=
  rounded (!a.isZero && !a.negative) a.coefficient 1 a.exponent a.exponent

end LoxMachine.Number
