import Mathlib
import LoxMachine.Shell.Command
import LoxMachine.Proofs.Session.Reachable

namespace LoxMachine

namespace Session

theorem sound_start (file : String) (microseconds : Nat) :
    ∃ held, (start file microseconds).Sound [] held :=
  ⟨_, sound_of_reachable (.native (.empty file) "clock" 0 (clockFrom microseconds))⟩

end Session

theorem Shell.failureReport_eq_none {exceeded file : String} {f : Failure}
    (allowed : f.Admissible) : failureReport exceeded file f = none ↔ f = .overflow := by
  cases f with
  | complaint complaint line => cases complaint <;> exact iff_of_false nofun nofun
  | host | callDepth => exact iff_of_false nofun nofun
  | overflow => exact iff_of_true rfl rfl
  | scope | noDistance | superNotClass => exact allowed.elim

namespace Shell

/-- The host has stack for all that comes before the run: to read the text, to list each statement
if there is a listing, and to check the program. -/
def Options.hasRoom (o : Options) (firstId : NodeId) (source : String) : Bool :=
  match tokenize source with
  | .error _ => true
  | .ok tokens =>
    o.host.reads tokens &&
      match (parse firstId tokens).1 with
      | .error _ => true
      | .ok program => !(o.listing && !program.all o.host.lists) && o.host.checks program

theorem hasRoom_roomy (listing : Bool) (limits : Limits) (firstId : NodeId) (source : String) :
    Options.hasRoom ⟨listing, .roomy limits⟩ firstId source = true := by
  unfold Options.hasRoom
  split
  · rfl
  · split
    · rfl
    · simp [Host.roomy]

/-- What a chunk writes before its program begins to run: the log of the stages that it goes
through, and the listing. -/
def preface (o : Options) (file : String) (firstId : NodeId) (source : String) : Transcript :=
  match tokenize source with
  | .error _ => .empty
  | .ok tokens =>
    let scanned := o.log [scannedLog tokens]
    match (parse firstId tokens).1 with
    | .error _ => scanned
    | .ok program =>
      let parsed := scanned ++ o.log [parsedLog file program]
      let listed := parsed ++ if o.listing then .say (listing tokens program) else .empty
      match distancesOf program with
      | .error _ => listed
      | .ok distances => listed ++ o.log [resolvedLog file distances]

theorem Transcript.empty_append (a : Transcript) : .empty ++ a = a := by
  obtain ⟨out, err⟩ := a
  change Transcript.mk ("" ++ out) ("" ++ err) = _
  rw [String.empty_append, String.empty_append]

theorem preface_silent {o : Options} (silent : o.listing = false) (file : String) (firstId : NodeId)
    (source : String) : preface o file firstId source = .empty := by
  have nothing : ∀ lines, o.log lines = .empty := by
    intro lines
    unfold Options.log
    rw [silent]
    rfl
  unfold preface
  simp only [nothing, silent, Transcript.empty_append, Bool.false_eq_true, if_false]
  split
  · rfl
  · split
    · rfl
    · split <;> rfl

def reportResult (o : Options) (file ranIn : String) :
    Except Rejection Run → Transcript × Conclusion
  | .error rejection => reportRejection file rejection
  | .ok r => reportRun o ranIn r

theorem runChunk_eq {o : Options} (file : String) {s : Session} {source : String}
    (room : o.hasRoom s.nextId source = true) :
    runChunk o file s source =
      ((s.run o.limits source).1,
        preface o file s.nextId source ++ (reportResult o file s.file (s.run o.limits source).2).1,
        (reportResult o file s.file (s.run o.limits source).2).2) := by
  unfold Options.hasRoom at room
  unfold runChunk preface Session.run Session.read
  cases scanned : tokenize source with
  | error faults => simp only [reportResult, Transcript.empty_append]
  | ok tokens =>
    simp only [scanned, Bool.and_eq_true] at room
    obtain ⟨reads, room⟩ := room
    cases parsed : parse s.nextId tokens with
    | mk result stop =>
      cases result with
      | error e =>
        simp only [parsed, reads, Bool.not_true, Bool.false_eq_true, if_false]
        rfl
      | ok program =>
        simp only [parsed, Bool.and_eq_true, Bool.not_eq_true'] at room
        obtain ⟨lists, checks⟩ := room
        have passed : (Except.ok program : Except SyntaxError _).mapError Rejection.grammar =
            .ok program := rfl
        simp only [parsed, passed, reads, lists, checks, Bool.not_true, Bool.false_eq_true, if_false]
        cases distances : distancesOf program with
        | error e => rfl
        | ok ds => rfl

/-- Without stack for what comes before the run the command ends in no way that has a code. -/
theorem conclusion_of_not_hasRoom {o : Options} (file : String) {s : Session} {source : String}
    (narrow : o.hasRoom s.nextId source = false) : (runChunk o file s source).2.2 = tooDeep := by
  unfold Options.hasRoom at narrow
  unfold runChunk
  cases scanned : tokenize source with
  | error faults =>
    rw [scanned] at narrow
    cases narrow
  | ok tokens =>
    cases reads : o.host.reads tokens with
    | false => simp only [reads, Bool.not_false, if_true]
    | true =>
      cases parsed : parse s.nextId tokens with
      | mk result stop =>
        cases result with
        | error e =>
          rw [scanned] at narrow
          simp only [reads, parsed, Bool.and_self, Bool.true_eq_false] at narrow
        | ok program =>
          rw [scanned] at narrow
          simp only [reads, parsed, Bool.true_and] at narrow
          simp only [parsed, reads, Bool.not_true, Bool.false_eq_true, if_false]
          cases lists : o.listing && !program.all o.host.lists with
          | true => rfl
          | false =>
            simp only [lists, Bool.not_false, Bool.true_and] at narrow
            simp only [narrow, Bool.not_false, if_true, Bool.false_eq_true, if_false]

def scripted (o : Options) (clock : Nat) (path source : String) : Session × Except Rejection Run :=
  (Session.start path clock).run o.limits source

/-- The program is rejected, or its run comes to an end. -/
def Stops (result : Except Rejection Run) : Prop :=
  ∀ r, result = .ok r → r.outcome ≠ .unfinished

/-- A number of the program gets too large. -/
def Overflows (result : Except Rejection Run) : Prop :=
  ∃ r, result = .ok r ∧ r.outcome = .failed .overflow

instance (result : Except Rejection Run) : Decidable (Stops result) :=
  match result with
  | .error _ => isTrue nofun
  | .ok ⟨.unfinished, _, _⟩ => isFalse fun stops => stops _ rfl rfl
  | .ok ⟨.value _, _, _⟩ | .ok ⟨.done, _, _⟩ | .ok ⟨.returned _, _, _⟩ | .ok ⟨.failed _, _, _⟩ =>
    isTrue fun
      | _, rfl => nofun

instance (result : Except Rejection Run) : Decidable (Overflows result) :=
  match result with
  | .error _ => isFalse nofun
  | .ok ⟨.failed f, printed, classes⟩ =>
    if same : f = .overflow then isTrue ⟨⟨.failed f, printed, classes⟩, rfl, congrArg _ same⟩
    else isFalse fun
      | ⟨_, rfl, failed⟩ => same (Outcome.failed.inj failed)
  | .ok ⟨.value _, _, _⟩ | .ok ⟨.done, _, _⟩ | .ok ⟨.returned _, _, _⟩ | .ok ⟨.unfinished, _, _⟩ =>
    isFalse nofun

/-- The command ends with the code that tells what came of the script, a failure is reported among
the errors, and of a rejected program nothing was run. -/
structure Accounts (o : Options) (clock : Nat) (path source : String)
    (ended : Transcript × Conclusion) : Prop where
  exits : ∃ code, ended.2 = .exit code
  rejected : ended.2 = .exit 65 ↔ ∃ rejection, (scripted o clock path source).2 = .error rejection
  failed : ended.2 = .exit 70 ↔
    ∃ r f, (scripted o clock path source).2 = .ok r ∧ r.outcome = .failed f
  finished : ended.2 = .exit 0 ↔ ∃ r, (scripted o clock path source).2 = .ok r ∧ r.outcome = .done
  untouched : ∀ rejection, (scripted o clock path source).2 = .error rejection →
    (scripted o clock path source).1.store = (Session.start path clock).store ∧
      ended.1.out = (preface o path (Session.start path clock).nextId source).out
  reportsRejection : ∀ rejection, (scripted o clock path source).2 = .error rejection →
    ∃ before, ended.1.err = before ++ linesText (rejectionReport path rejection)
  reportsFailure : ∀ r f, (scripted o clock path source).2 = .ok r → r.outcome = .failed f →
    ∃ before line, failureReport (o.host.exceeded r) path f = some line ∧
      ended.1.err = before ++ linesText [line]

section Script

variable {o : Options} {clock : Nat} {directory : Directory} {path source : String}
  {bytes : ByteArray}

theorem run_script (typed : List Typed) (script : Request.ofArguments [path] = .script path)
    (opened : directory.openPath path = .contents bytes)
    (text : Text.ofFileBytes bytes = some source) :
    run o clock directory [path] typed = (runChunk o path (Session.start path clock) source).2 := by
  unfold run
  rw [script]
  simp only [runScript, opened, text]

theorem runChunk_script (room : o.hasRoom (Session.start path clock).nextId source = true) :
    (runChunk o path (Session.start path clock) source).2 =
      (preface o path (Session.start path clock).nextId source ++
          (reportResult o path path (scripted o clock path source).2).1,
        (reportResult o path path (scripted o clock path source).2).2) :=
  congrArg Prod.snd (runChunk_eq path room)

/-- The command and a program that is rejected. -/
theorem accounts_of_rejected {rejection : Rejection} (front : Transcript)
    (result : (scripted o clock path source).2 = .error rejection)
    (quiet : front.out = (preface o path (Session.start path clock).nextId source).out) :
    Accounts o clock path source
      (front ++ (reportRejection path rejection).1, (reportRejection path rejection).2) := by
  have kept : (scripted o clock path source).1.store = (Session.start path clock).store := by
    have ran : (Session.start path clock).run o.limits source =
        ((scripted o clock path source).1, .error rejection) := Prod.ext rfl result
    rw [Session.eq_of_rejected ran, Session.read_eq]
  have shown : front.out ++ "" = (preface o path (Session.start path clock).nextId source).out := by
    rw [String.append_empty, quiet]
  refine ⟨⟨65, rfl⟩, iff_of_true rfl ⟨rejection, result⟩, ?_, ?_, fun _ _ => ⟨kept, shown⟩, ?_, ?_⟩
  · refine iff_of_false nofun ?_
    rintro ⟨r, f, other, _⟩
    cases result.symm.trans other
  · refine iff_of_false nofun ?_
    rintro ⟨r, other, _⟩
    cases result.symm.trans other
  · intro other same
    cases result.symm.trans same
    exact ⟨front.err, rfl⟩
  · intro r f other
    cases result.symm.trans other

/-- The command and a program that is run to its end. -/
theorem accounts_of_done {r : Run} (front : Transcript)
    (result : (scripted o clock path source).2 = .ok r) (done : r.outcome = .done) :
    Accounts o clock path source (front ++ (reportRun o path r).1, (reportRun o path r).2) := by
  have ended : (reportRun o path r).2 = .exit 0 := by
    unfold reportRun
    rw [done]
    rfl
  have accepted : ∀ rejection, (scripted o clock path source).2 ≠ .error rejection := by
    intro rejection same
    cases result.symm.trans same
  have sound : ∀ r' f, (scripted o clock path source).2 = .ok r' → r'.outcome ≠ .failed f := by
    intro r' f same failed
    cases result.symm.trans same
    cases done.symm.trans failed
  refine ⟨⟨0, ended⟩, iff_of_false ?_ ?_, iff_of_false ?_ ?_, iff_of_true ended ⟨r, result, done⟩,
    ?_, ?_, ?_⟩
  · rw [ended]
    nofun
  · rintro ⟨rejection, same⟩
    exact accepted rejection same
  · rw [ended]
    nofun
  · rintro ⟨r', f, same, failed⟩
    exact sound r' f same failed
  · exact fun rejection same => absurd same (accepted rejection)
  · exact fun rejection same => absurd same (accepted rejection)
  · exact fun r' f same failed => absurd failed (sound r' f same)

/-- The command and a program that fails with a failure that has a report. -/
theorem accounts_of_failed {r : Run} {f : Failure} {line : String} (front : Transcript)
    (result : (scripted o clock path source).2 = .ok r) (failed : r.outcome = .failed f)
    (report : failureReport (o.host.exceeded r) path f = some line) :
    Accounts o clock path source (front ++ (reportRun o path r).1, (reportRun o path r).2) := by
  have ended : reportRun o path r =
      (o.log (r.classes.map classLog) ++ .say r.output ++ .warn [line], .exit 70) := by
    unfold reportRun
    rw [failed]
    simp only [report]
    rfl
  have accepted : ∀ rejection, (scripted o clock path source).2 ≠ .error rejection := by
    intro rejection same
    cases result.symm.trans same
  rw [ended]
  refine ⟨⟨70, rfl⟩, iff_of_false nofun ?_, iff_of_true rfl ⟨r, f, result, failed⟩,
    iff_of_false nofun ?_, ?_, ?_, ?_⟩
  · rintro ⟨rejection, same⟩
    exact accepted rejection same
  · rintro ⟨r', same, done⟩
    cases result.symm.trans same
    cases failed.symm.trans done
  · exact fun rejection same => absurd same (accepted rejection)
  · exact fun rejection same => absurd same (accepted rejection)
  · intro r' f' same failed'
    cases result.symm.trans same
    cases failed.symm.trans failed'
    refine ⟨(front ++ (o.log (r.classes.map classLog) ++ .say r.output)).err, line, report, ?_⟩
    exact String.append_assoc.symm

theorem stray_of_overflow {r : Run} (failed : r.outcome = .failed .overflow) :
    (reportRun o path r).2 = .stray (.failed .overflow) := by
  unfold reportRun
  rw [failed]
  rfl

/-- What the command does with a script whose run stops is accounted for if and only if the host
has stack for what comes before the run, and no number of the program gets too large. -/
theorem accounts_iff_hasRoom (typed : List Typed)
    (script : Request.ofArguments [path] = .script path)
    (opened : directory.openPath path = .contents bytes)
    (text : Text.ofFileBytes bytes = some source) (stops : Stops (scripted o clock path source).2) :
    Accounts o clock path source (run o clock directory [path] typed) ↔
      o.hasRoom (Session.start path clock).nextId source = true ∧
        ¬ Overflows (scripted o clock path source).2 := by
  rw [run_script typed script opened text]
  cases room : o.hasRoom (Session.start path clock).nextId source with
  | false =>
    refine iff_of_false (fun accounts => ?_) fun fine => Bool.false_ne_true fine.1
    obtain ⟨code, exits⟩ := accounts.exits
    cases (conclusion_of_not_hasRoom path room).symm.trans exits
  | true =>
    rw [runChunk_script room]
    cases result : (scripted o clock path source).2 with
    | error rejection =>
      refine iff_of_true (accounts_of_rejected _ result rfl) ⟨rfl, ?_⟩
      rintro ⟨r, same, _⟩
      cases same
    | ok r =>
      obtain ⟨held, sound⟩ := Session.sound_start path clock
      have ran : (Session.start path clock).run o.limits source =
          ((scripted o clock path source).1, .ok r) := Prod.ext rfl result
      rcases Session.outcome_of_run sound ran with done | ⟨f, failed, allowed⟩ | cut
      · refine iff_of_true (accounts_of_done _ result done) ⟨rfl, ?_⟩
        rintro ⟨_, ⟨⟩, failed⟩
        cases done.symm.trans failed
      · cases report : failureReport (o.host.exceeded r) path f with
        | none =>
          obtain rfl := (failureReport_eq_none allowed).mp report
          refine iff_of_false (fun accounts => ?_) fun fine => fine.2 ⟨r, rfl, failed⟩
          obtain ⟨code, exits⟩ := accounts.exits
          cases (stray_of_overflow failed).symm.trans exits
        | some line =>
          refine iff_of_true (accounts_of_failed _ result failed report) ⟨rfl, ?_⟩
          rintro ⟨_, ⟨⟩, failed'⟩
          cases failed.symm.trans failed'
          cases report
      · exact absurd cut (stops r result)

end Script

def Directory.ofFile (path text : String) : Directory := .put [] path (.file text.toUTF8)

theorem openPath_ofFile (text : String) :
    (Directory.ofFile "a" text).openPath "a" = .contents text.toUTF8 := by
  have whole : "a".splitOn "/" = ["a"] := by cbv
  have plain : "a".contains '\x00' = false := by simp
  have below : "a".startsWith "/" = false := by decide +kernel
  simp only [Directory.openPath, Directory.ofFile, Directory.put, Directory.pathNames, whole, plain,
    below]
  rfl

/-- A script that prints a number and comes to its end. -/
theorem accounts_of_print :
    Request.ofArguments ["a"] = .script "a" ∧
      (Directory.ofFile "a" "print 1;").openPath "a" = .contents "print 1;".toUTF8 ∧
      Text.ofFileBytes "print 1;".toUTF8 = some "print 1;" ∧
      Stops (scripted ⟨false, .roomy .standard⟩ 0 "a" "print 1;").2 ∧
      Accounts ⟨false, .roomy .standard⟩ 0 "a" "print 1;"
        (run ⟨false, .roomy .standard⟩ 0 (Directory.ofFile "a" "print 1;") ["a"] []) := by
  have script : Request.ofArguments ["a"] = .script "a" := by decide +kernel
  have opened := openPath_ofFile "print 1;"
  have text : Text.ofFileBytes "print 1;".toUTF8 = some "print 1;" := by rfl
  have stops : Stops (scripted ⟨false, .roomy .standard⟩ 0 "a" "print 1;").2 := by
    rintro r ⟨⟩
    nofun
  refine ⟨script, opened, text, stops, ?_⟩
  exact (accounts_iff_hasRoom [] script opened text stops).mpr
    ⟨hasRoom_roomy _ _ _ _, by decide +kernel⟩

def squares : String := "var a = 10; while (true) a = a * a;"

/-- The run of a script comes to a failure, and yet the command ends without a code. -/
theorem not_accounts_of_squares :
    Request.ofArguments ["a"] = .script "a" ∧
      (Directory.ofFile "a" squares).openPath "a" = .contents squares.toUTF8 ∧
      Text.ofFileBytes squares.toUTF8 = some squares ∧
      Stops (scripted ⟨false, .roomy .standard⟩ 0 "a" squares).2 ∧
      (run ⟨false, .roomy .standard⟩ 0 (Directory.ofFile "a" squares) ["a"] []).2 =
        .stray (.failed .overflow) ∧
      ¬ Accounts ⟨false, .roomy .standard⟩ 0 "a" squares
        (run ⟨false, .roomy .standard⟩ 0 (Directory.ofFile "a" squares) ["a"] []) := by
  have script : Request.ofArguments ["a"] = .script "a" := by decide +kernel
  have opened := openPath_ofFile squares
  have text : Text.ofFileBytes squares.toUTF8 = some squares := by rfl
  have overflows : Overflows (scripted ⟨false, .roomy .standard⟩ 0 "a" squares).2 := by decide +kernel
  obtain ⟨r, result, failed⟩ := overflows
  have stray : (run ⟨false, .roomy .standard⟩ 0 (Directory.ofFile "a" squares) ["a"] []).2 =
      .stray (.failed .overflow) := by
    rw [run_script [] script opened text, runChunk_script (hasRoom_roomy _ _ _ _), result]
    exact stray_of_overflow failed
  refine ⟨script, opened, text, fun other same => ?_, stray, fun accounts => ?_⟩
  · cases result.symm.trans same
    rw [failed]
    nofun
  · obtain ⟨code, exits⟩ := accounts.exits
    cases stray.symm.trans exits

end Shell

end LoxMachine
