import LoxMachine.Shell.Prompt
import LoxMachine.Shell.Directory
import LoxMachine.Text.Lines

namespace LoxMachine.Shell

inductive Request where
  | prompt
  | script (path : String)
  | help
  | misuse
deriving DecidableEq

def Request.ofArguments : List String → Request
  | [] => .prompt
  | [argument] =>
    if argument = "-h" ∨ argument = "--help" then .help
    else if argument.startsWith "-" then .misuse
    else .script argument
  | _ => .misuse

def usage : String := linesText [
  "",
  "Lox Language Interpreter",
  "",
  "Usage:",
  "    lox [script.lox]",
  "",
  "Arguments:",
  "    <script.lox>",
  "        Path to a Lox source file to execute.",
  "",
  "Example:",
  "    lox hello.lox",
  "",
  "Or run with no arguments to enter interactive mode (REPL).",
  "",
  "Options:",
  "    -h, --help",
  "        Show this help message and exit.",
  "",
  "Environment:",
  "    LOXDEBUG",
  "        Print tokens and AST before running, and log debug output."]

def openingReport (name : String) (number : Nat) (reason path : String) : String :=
  s!"{name}: [Errno {number}] {reason}: {Text.quoted path}"

/-- Runs the script at a path, of which the opening gave this. The clock starts at a number of
microseconds. -/
def runScript (o : Options) (clock : Nat) (path : String) (opened : Opened) :
    Transcript × Conclusion :=
  let refused := fun name number reason =>
    (Transcript.warn [openingReport name number reason path], Conclusion.exit noInputCode)
  match opened with
  | .missing => refused "FileNotFoundError" 2 "No such file or directory"
  | .isDirectory => refused "IsADirectoryError" 21 "Is a directory"
  | .notDirectory => refused "NotADirectoryError" 20 "Not a directory"
  | .nameTooLong => refused "OSError" 36 "File name too long"
  | .malformed => (.empty, .malformedPath)
  | .contents bytes =>
    match Text.ofFileBytes bytes with
    | none => (.empty, .undecodable)
    | some source => (runChunk o path (Session.start path clock) source).2

def Prompt.initial (clock : Nat) : Prompt := ⟨Session.start typedFile clock, []⟩

/-- The whole command, in a directory and with everything that will be typed. -/
def run (o : Options) (clock : Nat) (directory : Directory) (arguments : List String)
    (typed : List Typed) : Transcript × Conclusion :=
  match Request.ofArguments arguments with
  | .help => (.say usage, .exit successCode)
  | .misuse => (.say usage, .exit usageCode)
  | .script path => runScript o clock path (directory.openPath path)
  | .prompt =>
    let (shown, conclusion) := (Prompt.initial clock).converse o typed
    (.say Prompt.greeting ++ shown, conclusion)

end LoxMachine.Shell
