import LoxMachine.Shell.Command

namespace LoxMachine.Shell

def write (t : Transcript) : IO Unit := do
  (← IO.getStdout).putStr t.out
  (← IO.getStderr).putStr t.err
  (← IO.getStdout).flush

def exitCode : Conclusion → UInt32
  | .exit code => code.toUInt32
  | .stray _ | .undecodable | .malformedPath => 1

def openFile (path : String) : IO Opened := do
  try
    return .contents (← IO.FS.readBinFile path)
  catch
    | .noFileOrDirectory .. => return .missing
    | .inappropriateType .. => return .isDirectory
    | .invalidArgument .. => return .nameTooLong
    | _ => return .notDirectory

def readTyped : IO Typed := do
  let line ← (← IO.getStdin).getLine
  if line.isEmpty then return .endOfInput
  else return .line (String.ofList (line.toList.reverse.dropWhile (· == '\n')).reverse)

partial def converse (o : Options) (p : Prompt) : IO UInt32 := do
  write (.say p.question)
  let (shown, result) := p.feed o (← readTyped)
  write shown
  match result with
  | .ok next => converse o next
  | .error conclusion => return exitCode conclusion

end LoxMachine.Shell

open LoxMachine.Shell in
def main (arguments : List String) : IO UInt32 := do
  let listing := ((← IO.getEnv "LOXDEBUG").getD "") != ""
  let o : Options := ⟨listing, LoxMachine.Limits.standard⟩
  let clock := (← IO.monoNanosNow) / 1000
  match Request.ofArguments arguments with
  | .prompt =>
    write (.say Prompt.greeting)
    converse o (.initial clock)
  | .script path =>
    let (shown, conclusion) := runScript o clock path (← openFile path)
    write shown
    return exitCode conclusion
  | .help | .misuse =>
    let (shown, conclusion) := LoxMachine.Shell.run o clock [] arguments []
    write shown
    return exitCode conclusion
