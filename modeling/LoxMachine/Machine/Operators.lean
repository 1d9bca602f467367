import LoxMachine.Machine.Failure
import LoxMachine.Number.Arithmetic
import LoxMachine.Number.Order

namespace LoxMachine

def numberResult : Except Number.RangeError Number → Except Failure Value
  | .ok n => .ok (.number n)
  | .error .overflow => .error .overflow

def applyPrefix (operator : Token) (operand : Value) : Except Failure Value :=
  if operator.isSymbol .bang then .ok (.bool !operand.isTruthy)
  else match operand with
    | .number n => numberResult n.neg
    | v => .error (.against operator (.negatedNonNumber v.text))

/-- An operator between two numbers; `form` is shown when they cannot be divided. -/
def applyNumbers (form : Unit → String) (operator : Token) (a b : Number) :
    Except Failure Value :=
  match operator.kind with
  | .symbol .plus => numberResult (a.add b)
  | .symbol .minus => numberResult (a.sub b)
  | .symbol .star => numberResult (a.mul b)
  | .symbol .slash =>
    if b.isZero then .error (.against operator (.divisionByZero (form ())))
    else numberResult (a.div b)
  | .symbol .greater => .ok (.bool (a.compare b == .gt))
  | .symbol .greaterEqual => .ok (.bool (a.compare b != .lt))
  | .symbol .less => .ok (.bool (a.compare b == .lt))
  | .symbol .lessEqual => .ok (.bool (a.compare b != .gt))
  | _ => .error (.against operator (.unknownOperator operator.lexeme))

def applyBinary (form : Unit → String) (operator : Token) (left right : Value) :
    Except Failure Value :=
  match operator.kind, left, right with
  | .symbol .equalEqual, _, _ => .ok (.bool (left.isEqual right))
  | .symbol .bangEqual, _, _ => .ok (.bool !left.isEqual right)
  | .symbol .plus, .string a, .string b => .ok (.string (a ++ b))
  | _, .number a, .number b => applyNumbers form operator a b
  | _, _, _ =>
    .error (.against operator (.operandKinds left.text operator.lexeme right.text))

end LoxMachine
