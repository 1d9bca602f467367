import LoxMachine.Number.Digits

namespace LoxMachine.Number

def compareAligned (a b : Number) : Ordering :=
  let e := a.commonExponent b
  Ord.compare (a.scaledTo e) (b.scaledTo e)

def compare (a b : Number) : Ordering :=
  if a.isZero || b.isZero || a.negative != b.negative then
    Ord.compare a.signed.sign b.signed.sign
  else
    match Ord.compare a.leading b.leading with
    | .eq => a.compareAligned b
    | order => if a.negative then order.swap else order

def sameValue (a b : Number) : Bool := a.compare b == .eq

end LoxMachine.Number
