import LoxMachine.Number.Basic

namespace LoxMachine.Number

def digitCountBelow : Nat → Nat → Nat
  | 0, _ => 1
  | k + 1, n =>
    let half := 2 ^ k
    if n < powerOfTen half then digitCountBelow k n
    else half + digitCountBelow k (n / powerOfTen half)

def digitCount (n : Nat) : Nat := digitCountBelow (n.log2.log2 + 1) n

/-- The exponent `l` with `10 ^ l ≤ n / d < 10 ^ (l + 1)`, for positive `n` and `d`. -/
def leadingExponent (n d : Nat) : Int :=
  let l : Int := digitCount n - digitCount d
  if d * powerOfTen l.toNat ≤ n * powerOfTen (-l).toNat then l else l - 1

def leading (a : Number) : Int := a.exponent + digitCount a.coefficient - 1

end LoxMachine.Number
