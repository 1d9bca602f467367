import LoxMachine.Machine.State
import LoxMachine.Grammar.Expectation
import LoxMachine.Token.Scan

namespace LoxMachine

inductive Outcome where
  | value (v : Value)
  | done
  /-- A `return` found no call to end. -/
  | returned (v : Value)
  | failed (f : Failure)
  | unfinished

def Machine.outcome (m : Machine) : Outcome :=
  match m.control, m.frames with
  | .value v, [] => .value v
  | .done, [] => .done
  | .returning v, [] => .returned v
  | .failing f, [] => .failed f
  | _, _ => .unfinished

inductive Rejection where
  | scan (faults : List ScanFault)
  | grammar (error : SyntaxError)
  | static (error : StaticError)

def Rejection.messages (file : String) : Rejection → List String
  | scan faults => faults.map (·.message)
  | grammar error => [error.message file]
  | static error => [error.message file]

structure Run where
  outcome : Outcome
  printed : List String
  classes : List (String × Nat)

def linesText (lines : List String) : String := String.join (lines.map (· ++ "\n"))

def Run.output (r : Run) : String := linesText r.printed

end LoxMachine
