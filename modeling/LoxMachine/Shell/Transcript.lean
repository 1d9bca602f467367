import LoxMachine.Machine.Outcome

namespace LoxMachine.Shell

structure Transcript where
  out : String
  err : String

namespace Transcript

def empty : Transcript := ⟨"", ""⟩

instance : Append Transcript := ⟨fun a b => ⟨a.out ++ b.out, a.err ++ b.err⟩⟩

def say (text : String) : Transcript := ⟨text, ""⟩

def warn (lines : List String) : Transcript := ⟨"", linesText lines⟩

end Transcript

end LoxMachine.Shell
