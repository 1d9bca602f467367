import LoxMachine.Machine.Session
import LoxMachine.Shell.Listing
import LoxMachine.Shell.Report
import LoxMachine.Shell.Transcript
import LoxMachine.Text.Search

namespace LoxMachine.Shell

/-- What a command runs on: how far its runs may go, and for what else there is stack. Reading,
listing and checking go as deep as what is read, listed or checked, and nothing but the host knows
how deep it can go. -/
structure Host where
  limits : Limits
  reads : List Token → Bool
  lists : Stmt → Bool
  checks : List Stmt → Bool
  /-- What it says of a run that goes too deep. -/
  exceeded : Run → String

/-- A host with stack for everything but the calls of a run. -/
def Host.roomy (limits : Limits) : Host where
  limits
  reads _ := true
  lists _ := true
  checks _ := true
  exceeded _ := "maximum recursion depth exceeded"

instance : Coe Limits Host := ⟨Host.roomy⟩

structure Options where
  listing : Bool
  host : Host

namespace Options

def limits (o : Options) : Limits := o.host.limits

def log (o : Options) (lines : List String) : Transcript :=
  if o.listing then .warn lines else .empty

/-- The host has stack to read the text, or the text cannot be scanned. -/
def reads (o : Options) (source : String) : Bool :=
  match tokenize source with
  | .error _ => true
  | .ok tokens => o.host.reads tokens

end Options

def reportRun (o : Options) (file : String) (r : Run) : Transcript × Conclusion :=
  let shown := o.log (r.classes.map classLog) ++ .say r.output
  match r.outcome with
  | .done => (shown, .exit successCode)
  | .failed f =>
    match failureReport (o.host.exceeded r) file f with
    | some line => (shown ++ .warn [line], .exit failureCode)
    | none => (shown, .stray r.outcome)
  | .value _ | .returned _ | .unfinished => (shown, .stray r.outcome)

def reportRejection (file : String) (r : Rejection) : Transcript × Conclusion :=
  (.warn (rejectionReport file r), .exit rejectionCode)

/-- How a command ends for which the host has not stack enough. Only of a run is that reported. -/
def tooDeep : Conclusion := .stray (.failed .callDepth)

/-- Runs a chunk from the given file. -/
def runChunk (o : Options) (file : String) (s : Session) (source : String) :
    Session × Transcript × Conclusion :=
  match tokenize source with
  | .error faults => (s, reportRejection file (.scan faults))
  | .ok tokens =>
    let scanned := o.log [scannedLog tokens]
    if !o.host.reads tokens then (s, scanned, tooDeep)
    else
      let (result, stop) := parse s.nextId tokens
      let s := { s with nextId := stop.nextId }
      match result with
      | .error error =>
        let (rest, conclusion) := reportRejection file (.grammar error)
        (s, scanned ++ rest, conclusion)
      | .ok program =>
        let parsed := scanned ++ o.log [parsedLog file program]
        if o.listing && !program.all o.host.lists then
          (s, parsed ++ .say (beginning tokens (program.takeWhile o.host.lists)), tooDeep)
        else
          let listed := parsed ++ if o.listing then .say (listing tokens program) else .empty
          if !o.host.checks program then (s, listed, tooDeep)
          else
            match distancesOf program with
            | .error error =>
              let (rest, conclusion) := reportRejection file (.static error)
              (s, listed ++ rest, conclusion)
            | .ok distances =>
              let resolved := listed ++ o.log [resolvedLog file distances]
              let (s, run) := s.interpret o.limits program distances
              let (rest, conclusion) := reportRun o s.file run
              (s, resolved ++ rest, conclusion)

def typedFile : String := "<stdin>"

def endOfInput : String := "end of input"

/-- The grammar wants more than the source text has. The message is searched for the words that
name the end of the input. The nodes of the test are numbered from one: the numbers that it uses up
get into no session, and without them the nodes of what is run next are only numbered lower. -/
def isIncomplete (source : String) : Bool :=
  match tokenize source with
  | .error _ => false
  | .ok tokens =>
    match (parse 1 tokens).1 with
    | .error error => Text.occursIn endOfInput.toList (error.message typedFile).toList
    | .ok _ => false

def completenessLog (host : Host) (source : String) : List String :=
  match tokenize source with
  | .error _ => []
  | .ok tokens =>
    if !host.reads tokens then [scannedLog tokens]
    else
      match (parse 1 tokens).1 with
      | .error _ => [scannedLog tokens]
      | .ok program => [scannedLog tokens, parsedLog typedFile program]

end LoxMachine.Shell
