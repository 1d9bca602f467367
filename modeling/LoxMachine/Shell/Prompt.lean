import LoxMachine.Shell.Chunk
import LoxMachine.Text.Blank

namespace LoxMachine.Shell

inductive Typed where
  | line (text : String)
  | interrupt
  | endOfInput

/-- The session and the lines of a chunk that is not complete, the last one first. -/
structure Prompt where
  session : Session
  pending : List String

namespace Prompt

def greeting : String :=
  linesText ["Lox Language Interpreter - REPL", "Type \x60exit\x60 or \x60quit\x60 to leave."]

def question (p : Prompt) : String := if p.pending.isEmpty then ">>> " else "... "

/-- A line that leaves the prompt, where a chunk could begin. -/
def isLeaving (p : Prompt) (line : String) : Bool :=
  p.pending.isEmpty && ["exit", "quit"].contains (Text.trimmed line)

/-- The prompt after an input, or how the command ends. -/
def feed (o : Options) (p : Prompt) : Typed → Transcript × Except Conclusion Prompt
  | .endOfInput => (.say "\n", .error (.exit successCode))
  | .interrupt => (.say "\nInterrupted.\n", .error (.exit successCode))
  | .line line =>
    if p.isLeaving line then (.empty, .error (.exit successCode))
    else
      let pending := line :: p.pending
      let source := "\n".intercalate pending.reverse
      let tested := o.log (completenessLog o.host source)
      if !o.reads source then (tested, .error tooDeep)
      else if isIncomplete source then (tested, .ok { p with pending })
      else
        let (session, shown, conclusion) := runChunk o typedFile p.session source
        match conclusion with
        | .exit _ => (tested ++ shown, .ok ⟨session, []⟩)
        | _ => (tested ++ shown, .error conclusion)

def converse (o : Options) (p : Prompt) : List Typed → Transcript × Conclusion
  | [] =>
    let (shown, result) := p.feed o .endOfInput
    match result with
    | .ok _ => (.say p.question ++ shown, .exit successCode)
    | .error conclusion => (.say p.question ++ shown, conclusion)
  | input :: inputs =>
    let (shown, result) := p.feed o input
    let shown := .say p.question ++ shown
    match result with
    | .ok next =>
      let (rest, conclusion) := next.converse o inputs
      (shown ++ rest, conclusion)
    | .error conclusion => (shown, conclusion)

end Prompt

end LoxMachine.Shell
