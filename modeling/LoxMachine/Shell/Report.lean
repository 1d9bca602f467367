import LoxMachine.Machine.Outcome

namespace LoxMachine.Shell

/-- How a command ends. -/
inductive Conclusion where
  | exit (code : Nat)
  /-- A run, or what comes before it, came out in a way that no exit code stands for. -/
  | stray (outcome : Outcome)
  | undecodable
  | malformedPath

def successCode : Nat := 0
def usageCode : Nat := 64
def rejectionCode : Nat := 65
def noInputCode : Nat := 66
def failureCode : Nat := 70

def rejectionName : Rejection → String
  | .scan _ => "ScanError"
  | .grammar _ => "ParseError"
  | .static _ => "ResolveError"

def rejectionReport (file : String) (r : Rejection) : List String :=
  (r.messages file).map fun message => rejectionName r ++ ": " ++ message

/-- The line that reports a failed run; some failures are not for a report. What is said of a run
that goes too deep is the host's. -/
def failureReport (exceeded file : String) (f : Failure) : Option String :=
  match f with
  | .complaint (.undefinedVariable _) _ =>
    (f.message? file).map ("UndefinedVariableException: " ++ ·)
  | .complaint _ _ | .host _ _ _ => (f.message? file).map ("LoxRuntimeError: " ++ ·)
  | .callDepth => some ("RecursionError: " ++ exceeded)
  | .overflow | .scope _ | .noDistance _ | .superNotClass => none

end LoxMachine.Shell
