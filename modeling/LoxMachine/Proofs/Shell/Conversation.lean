import LoxMachine.Proofs.Shell.Script

namespace LoxMachine

namespace Session

/-- Runs texts one after another, and gives what came of each of them. -/
def runEach (limits : Limits) (s : Session) : List String → Session × List (Except Rejection Run)
  | [] => (s, [])
  | source :: sources =>
    let (next, result) := s.run limits source
    let (last, results) := next.runEach limits sources
    (last, result :: results)

theorem file_of_run (limits : Limits) (s : Session) (source : String) :
    (s.run limits source).1.file = s.file := by
  have read : (s.read source).1.file = s.file := by rw [read_eq]
  unfold Session.run
  split
  · rename_i t rejection rejected
    rw [rejected] at read
    exact read
  · rename_i t program accepted
    rw [accepted] at read
    split
    · exact read
    · exact read

/-- For none of the texts, run one after another, the host lacks stack before the run. -/
def HasRoomEach (o : Shell.Options) (s : Session) : List String → Prop
  | [] => True
  | source :: sources =>
    o.hasRoom s.nextId source = true ∧ (s.run o.limits source).1.HasRoomEach o sources

theorem hasRoomEach_roomy (listing : Bool) (limits : Limits) (s : Session) (sources : List String) :
    s.HasRoomEach ⟨listing, .roomy limits⟩ sources := by
  induction sources generalizing s with
  | nil => exact True.intro
  | cons source sources ih => exact ⟨Shell.hasRoom_roomy _ _ _ _, ih _⟩

end Session

namespace Shell

def joined (lines : List String) : String := "\n".intercalate lines

def leaves (line : String) : Bool := ["exit", "quit"].contains (Text.trimmed line)

/-- Lines that are waited on for more. -/
structure Unfinished (lines : List String) : Prop where
  begins : ∀ line ∈ lines.head?, leaves line = false
  incomplete : ∀ first, first <+: lines → first ≠ [] → isIncomplete (joined first) = true

/-- The shortest lines from the first one on that are not incomplete. -/
structure IsChunk (lines : List String) : Prop where
  nonempty : lines ≠ []
  begins : ∀ line ∈ lines.head?, leaves line = false
  complete : isIncomplete (joined lines) = false
  shortest : ∀ first, first <+: lines → first ≠ [] → first ≠ lines →
    isIncomplete (joined first) = true

/-- The typed lines are chunks, the beginning of a further one, and what is not read: nothing, or a
line that leaves the prompt and everything behind it. -/
structure Cut (typed : List String) (chunks : List (List String)) (rest unread : List String) :
    Prop where
  whole : typed = chunks.flatten ++ (rest ++ unread)
  complete : ∀ chunk ∈ chunks, IsChunk chunk
  unfinished : Unfinished rest
  left : unread = [] ∨ rest = [] ∧ ∃ line later, unread = line :: later ∧ leaves line = true

theorem unfinished_nil : Unfinished [] := by
  constructor
  · nofun
  · exact fun first begins some => absurd (List.prefix_nil.mp begins) some

theorem Unfinished.beginning {lines first : List String} (unfinished : Unfinished lines)
    (begins : first <+: lines) : Unfinished first := by
  obtain ⟨more, rfl⟩ := begins
  constructor
  · intro line head
    apply unfinished.begins line
    cases first with
    | nil => cases head
    | cons other rest => exact head
  · intro shorter begins some
    exact unfinished.incomplete shorter (begins.trans (List.prefix_append first more)) some

theorem head?_concat {before : List String} {line first : String}
    (head : first ∈ before.head?) : first ∈ (before ++ [line]).head? := by
  cases before with
  | nil => cases head
  | cons other rest => exact head

theorem IsChunk.concat {lines : List String} (chunk : IsChunk lines) :
    ∃ before last, lines = before ++ [last] ∧ Unfinished before := by
  obtain ⟨before, last, same⟩ := (List.eq_nil_or_concat lines).resolve_left chunk.nonempty
  rw [List.concat_eq_append] at same
  subst same
  refine ⟨before, last, rfl, fun line head => chunk.begins line (head?_concat head), ?_⟩
  intro first begins some
  apply chunk.shortest first (begins.trans (List.prefix_append before [last])) some
  rintro rfl
  have longer := begins.length_le
  rw [List.length_append] at longer
  exact Nat.not_succ_le_self _ longer

section Extend

variable {before : List String} {line : String} (unfinished : Unfinished before)
  (begins : before = [] → leaves line = false)

include unfinished begins

theorem begins_concat : ∀ first ∈ (before ++ [line]).head?, leaves first = false := by
  intro first head
  cases before with
  | nil =>
    cases head
    exact begins rfl
  | cons other rest => exact unfinished.begins first head

theorem unfinished_concat (more : isIncomplete (joined (before ++ [line])) = true) :
    Unfinished (before ++ [line]) := by
  refine ⟨begins_concat unfinished begins, fun first shorter some => ?_⟩
  rcases List.prefix_concat_iff.mp shorter with rfl | earlier
  · exact more
  · exact unfinished.incomplete first earlier some

theorem isChunk_concat (complete : isIncomplete (joined (before ++ [line])) = false) :
    IsChunk (before ++ [line]) := by
  refine ⟨List.concat_ne_nil line before, begins_concat unfinished begins, complete, ?_⟩
  intro first shorter some proper
  exact unfinished.incomplete first ((List.prefix_concat_iff.mp shorter).resolve_left proper) some

end Extend

/-- The host has stack to read the lines as they come, with every line all that are there. -/
def Testable (o : Options) (lines : List String) : Prop :=
  ∀ first, first <+: lines → first ≠ [] → o.reads (joined first) = true

theorem Testable.beginning {o : Options} {lines first : List String} (testable : Testable o lines)
    (begins : first <+: lines) : Testable o first :=
  fun shorter earlier some => testable shorter (earlier.trans begins) some

theorem testable_roomy (listing : Bool) (limits : Limits) (lines : List String) :
    Testable ⟨listing, .roomy limits⟩ lines := by
  intro first _ _
  unfold Options.reads
  split <;> rfl

/-- Any lines can be cut. -/
theorem exists_cut (typed : List String) : ∃ chunks rest unread, Cut typed chunks rest unread := by
  have cut : ∀ typed before, Unfinished before →
      ∃ chunks rest unread, Cut (before ++ typed) chunks rest unread := by
    intro typed
    -- on the lines still to be typed; those before them are waited on for more
    induction typed with
    | nil =>
      intro before unfinished
      exact ⟨[], before, [], rfl, nofun, unfinished, .inl rfl⟩
    | cons line later ih =>
      intro before unfinished
      by_cases leaving : before = [] ∧ leaves line = true
      · obtain ⟨rfl, leaving⟩ := leaving
        exact ⟨[], [], line :: later, rfl, nofun, unfinished_nil,
          .inr ⟨rfl, line, later, rfl, leaving⟩⟩
      · have begins : before = [] → leaves line = false :=
          fun fresh => Bool.not_eq_true _ ▸ fun leaves => leaving ⟨fresh, leaves⟩
        rw [List.append_cons]
        cases tested : isIncomplete (joined (before ++ [line])) with
        | true => exact ih (before ++ [line]) (unfinished_concat unfinished begins tested)
        | false =>
          have chunk := isChunk_concat unfinished begins tested
          obtain ⟨chunks, rest, unread, cut⟩ := ih [] unfinished_nil
          refine ⟨(before ++ [line]) :: chunks, rest, unread, ?_, ?_, cut.unfinished, cut.left⟩
          · rw [List.flatten_cons, List.append_assoc (before ++ [line]), ← cut.whole]
            rfl
          · exact List.forall_mem_cons.mpr ⟨chunk, cut.complete⟩
  exact cut typed [] unfinished_nil

namespace Transcript

theorem append_assoc (a b c : Transcript) : a ++ b ++ c = a ++ (b ++ c) := by
  change Transcript.mk (a.out ++ b.out ++ c.out) (a.err ++ b.err ++ c.err) = _
  rw [String.append_assoc, String.append_assoc]
  rfl

theorem say_append (a b : String) : say a ++ say b = say (a ++ b) := rfl

theorem say_warn (text : String) (lines : List String) :
    say text ++ warn lines = ⟨text, linesText lines⟩ := by
  change Transcript.mk (text ++ "") ("" ++ linesText lines) = _
  rw [String.append_empty, String.empty_append]

theorem append_empty (a : Transcript) : a ++ .empty = a := by
  change Transcript.mk (a.out ++ "") (a.err ++ "") = a
  rw [String.append_empty, String.append_empty]

end Transcript

namespace Prompt

/-- The prompt when the inputs end, or when it is left. -/
def after (o : Options) (p : Prompt) : List Typed → Prompt
  | [] => p
  | input :: inputs =>
    match (p.feed o input).2 with
    | .ok next => next.after o inputs
    | .error _ => p

inductive Goes (o : Options) : Prompt → List Typed → Transcript → Prompt → Prop
  | still (p : Prompt) : Goes o p [] .empty p
  | feed {p next last : Prompt} {input : Typed} {inputs : List Typed} {shown later : Transcript}
      (fed : p.feed o input = (shown, .ok next)) (goes : Goes o next inputs later last) :
      Goes o p (input :: inputs) (.say p.question ++ shown ++ later) last

variable {o : Options} {p next last : Prompt} {inputs others : List Typed}
  {shown later : Transcript}

theorem Goes.trans (first : Goes o p inputs shown next) (second : Goes o next others later last) :
    Goes o p (inputs ++ others) (shown ++ later) last := by
  induction first with
  | still p =>
    rw [Transcript.empty_append]
    exact second
  | feed fed goes ih =>
    rw [Transcript.append_assoc, List.cons_append]
    exact .feed fed (ih second)

theorem Goes.converse (goes : Goes o p inputs shown next) (others : List Typed) :
    p.converse o (inputs ++ others) =
      (shown ++ (next.converse o others).1, (next.converse o others).2) := by
  induction goes with
  | still p =>
    rw [Transcript.empty_append]
    rfl
  | feed fed goes ih =>
    rw [List.cons_append, Prompt.converse]
    simp only [fed, ih, Transcript.append_assoc]

theorem Goes.after (goes : Goes o p inputs shown next) (others : List Typed) :
    p.after o (inputs ++ others) = next.after o others := by
  induction goes with
  | still p => rfl
  | feed fed goes ih =>
    rw [List.cons_append, Prompt.after]
    simp only [fed, ih]

end Prompt

def questions : Nat → Nat → String
  | _, 0 => ""
  | before, count + 1 => (if before = 0 then ">>> " else "... ") ++ questions (before + 1) count

theorem questions_concat (before count : Nat) :
    questions before count ++ questions (before + count) 1 = questions before (count + 1) := by
  induction count generalizing before with
  | zero => rw [questions, String.empty_append, Nat.add_zero]
  | succ count ih =>
    have further : before + (count + 1) = before + 1 + count := by omega
    rw [questions, String.append_assoc, further, ih (before + 1)]
    rfl

section Silent

variable {o : Options} {s : Session} {before more : List String} {line : String}
  (silent : o.listing = false)

theorem question_eq (s : Session) (before : List String) :
    Prompt.question ⟨s, before.reverse⟩ = questions before.length 1 := by
  cases before with
  | nil => rfl
  | cons first rest =>
    simp [Prompt.question, questions]

theorem isLeaving_eq_false (begins : ∀ first ∈ (before ++ [line]).head?, leaves first = false) :
    Prompt.isLeaving ⟨s, before.reverse⟩ line = false := by
  cases before with
  | nil => exact begins line rfl
  | cons first rest => simp [Prompt.isLeaving]

include silent in
theorem log_silent (lines : List String) : o.log lines = .empty := by
  rw [Options.log, silent]
  rfl

theorem source_eq (before : List String) (line : String) :
    "\n".intercalate (line :: before.reverse).reverse = joined (before ++ [line]) := by
  rw [List.reverse_cons, List.reverse_reverse]
  rfl

include silent in
theorem feed_unfinished (unfinished : Unfinished (before ++ [line]))
    (testable : Testable o (before ++ [line])) :
    Prompt.feed o ⟨s, before.reverse⟩ (.line line) =
      (.empty, .ok ⟨s, (before ++ [line]).reverse⟩) := by
  have going := isLeaving_eq_false (s := s) unfinished.begins
  have some := List.concat_ne_nil line before
  have reads := testable _ (List.prefix_refl _) some
  have tested := unfinished.incomplete _ (List.prefix_refl _) some
  simp only [Prompt.feed, going, source_eq, reads, tested, log_silent silent]
  rw [List.reverse_append]
  rfl

include silent in
theorem goes_unfinished (before : List String) (unfinished : Unfinished (before ++ more))
    (testable : Testable o (before ++ more)) :
    Prompt.Goes o ⟨s, before.reverse⟩ (more.map .line)
      (.say (questions before.length more.length)) ⟨s, (before ++ more).reverse⟩ := by
  induction more generalizing before with
  | nil =>
    rw [List.append_nil]
    exact .still _
  | cons line rest ih =>
    rw [List.append_cons] at unfinished testable ⊢
    have begins := List.prefix_append (before ++ [line]) rest
    have fed := feed_unfinished (s := s) silent (unfinished.beginning begins)
      (testable.beginning begins)
    have goes := Prompt.Goes.feed fed (ih _ unfinished testable)
    have asked : Transcript.say (Prompt.question ⟨s, before.reverse⟩) ++ .empty ++
        .say (questions (before ++ [line]).length rest.length) =
        .say (questions before.length (line :: rest).length) := by
      rw [Transcript.append_empty, Transcript.say_append, question_eq, questions, questions,
        String.append_empty, List.length_append]
      rfl
    rw [asked] at goes
    exact goes

theorem linesText_append (first second : List String) :
    linesText (first ++ second) = linesText first ++ linesText second := by
  rw [linesText, List.map_append, String.join_append]
  rfl

def printed : Except Rejection Run → String
  | .error _ => ""
  | .ok r => r.output

/-- The lines that report what a typed program came to. -/
def reported (o : Options) : Except Rejection Run → List String
  | .error rejection => rejectionReport typedFile rejection
  | .ok r =>
    match r.outcome with
    | .failed f => (failureReport (o.host.exceeded r) typedFile f).toList
    | .value _ | .done | .returned _ | .unfinished => []

include silent in
/-- A program that comes to its end, is rejected, or fails without a number that is too large is
reported, and the prompt goes on. -/
theorem reportResult_eq {programs : List (List Stmt)} {held : List Value} {source : String}
    (sound : s.Sound programs held) (typed : s.file = typedFile)
    (stops : Stops (s.run o.limits source).2) (small : ¬ Overflows (s.run o.limits source).2) :
    ∃ code, reportResult o typedFile s.file (s.run o.limits source).2 =
      (⟨printed (s.run o.limits source).2, linesText (reported o (s.run o.limits source).2)⟩,
        .exit code) := by
  rw [typed]
  cases result : (s.run o.limits source).2 with
  | error rejection => exact ⟨rejectionCode, rfl⟩
  | ok r =>
    have shown : o.log (r.classes.map classLog) ++ .say r.output = .say r.output := by
      rw [log_silent silent, Transcript.empty_append]
    have ran : s.run o.limits source = ((s.run o.limits source).1, .ok r) := Prod.ext rfl result
    rcases Session.outcome_of_run sound ran with done | ⟨f, failed, allowed⟩ | cut
    · refine ⟨successCode, ?_⟩
      simp only [reportResult, reportRun, printed, reported, done, shown]
      rfl
    · cases report : failureReport (o.host.exceeded r) typedFile f with
      | none =>
        obtain rfl := (failureReport_eq_none allowed).mp report
        exact absurd ⟨r, result, failed⟩ small
      | some line =>
        refine ⟨failureCode, ?_⟩
        simp only [reportResult, reportRun, printed, reported, failed, shown, report,
          Transcript.say_warn]
        rfl
    · exact absurd cut (stops r result)

include silent in
theorem feed_chunk (chunk : IsChunk (before ++ [line])) (testable : Testable o (before ++ [line]))
    (room : o.hasRoom s.nextId (joined (before ++ [line])) = true)
    {result : Session × Except Rejection Run}
    (ran : s.run o.limits (joined (before ++ [line])) = result) {shown : Transcript} {code : Nat}
    (report : reportResult o typedFile s.file result.2 = (shown, .exit code)) :
    Prompt.feed o ⟨s, before.reverse⟩ (.line line) = (shown, .ok ⟨result.1, []⟩) := by
  have going := isLeaving_eq_false (s := s) chunk.begins
  have reads := testable _ (List.prefix_refl _) chunk.nonempty
  simp only [Prompt.feed, going, source_eq, reads, chunk.complete, log_silent silent,
    runChunk_eq typedFile room, preface_silent silent, ran, report, Transcript.empty_append,
    Bool.not_true, Bool.false_eq_true, if_false]

include silent in
theorem goes_chunk {lines : List String} (chunk : IsChunk lines) (testable : Testable o lines)
    (room : o.hasRoom s.nextId (joined lines) = true) {shown : Transcript} {code : Nat}
    (report : reportResult o typedFile s.file (s.run o.limits (joined lines)).2 =
      (shown, .exit code)) :
    Prompt.Goes o ⟨s, []⟩ (lines.map .line) (.say (questions 0 lines.length) ++ shown)
      ⟨(s.run o.limits (joined lines)).1, []⟩ := by
  obtain ⟨before, last, rfl, unfinished⟩ := chunk.concat
  have first : Prompt.Goes o ⟨s, []⟩ (before.map .line) (.say (questions 0 before.length))
      ⟨s, before.reverse⟩ :=
    goes_unfinished silent [] unfinished (testable.beginning (List.prefix_append before [last]))
  have fed := feed_chunk silent chunk testable room rfl report
  have both := first.trans (.feed fed (.still _))
  rw [Transcript.append_empty, ← Transcript.append_assoc, Transcript.say_append, question_eq] at both
  have asked := questions_concat 0 before.length
  rw [Nat.zero_add] at asked
  rw [asked] at both
  rw [List.map_append, List.length_append]
  exact both

/-- What a chunk makes the prompt write to the user: questions, and what its program prints. -/
def said (chunk : List String) (result : Except Rejection Run) : String :=
  questions 0 chunk.length ++ printed result

include silent in
/-- Chunks run one after another, each in the session that those before it left. -/
theorem goes_chunks {programs : List (List Stmt)} {held : List Value}
    (reached : Session.Reachable programs held s) (typed : s.file = typedFile)
    {chunks : List (List String)} (complete : ∀ chunk ∈ chunks, IsChunk chunk)
    (testable : ∀ chunk ∈ chunks, Testable o chunk) (room : s.HasRoomEach o (chunks.map joined))
    (fine : ∀ result ∈ (s.runEach o.limits (chunks.map joined)).2,
      Stops result ∧ ¬ Overflows result) :
    Prompt.Goes o ⟨s, []⟩ (chunks.flatten.map .line)
      ⟨String.join (List.zipWith said chunks (s.runEach o.limits (chunks.map joined)).2),
        linesText ((s.runEach o.limits (chunks.map joined)).2.flatMap (reported o))⟩
      ⟨(s.runEach o.limits (chunks.map joined)).1, []⟩ := by
  induction chunks generalizing s programs with
  | nil => exact .still _
  | cons chunk chunks ih =>
    simp only [List.map_cons, Session.runEach, List.forall_mem_cons] at fine complete testable ⊢
    obtain ⟨⟨stops, small⟩, later⟩ := fine
    obtain ⟨code, report⟩ := reportResult_eq silent (Session.sound_of_reachable reached) typed
      stops small
    obtain ⟨_, next⟩ := Session.reachable_run reached o.limits (joined chunk) stops
    have first := goes_chunk silent complete.1 testable.1 room.1 report
    have rest := ih next ((Session.file_of_run _ _ _).trans typed) complete.2 testable.2 room.2 later
    have both := first.trans rest
    rw [List.flatten_cons, List.map_append, List.zipWith_cons_cons, List.flatMap_cons,
      String.join_cons, linesText_append]
    have front : Transcript.say (questions 0 chunk.length) ++
        ⟨printed (s.run o.limits (joined chunk)).2,
          linesText (reported o (s.run o.limits (joined chunk)).2)⟩ =
        ⟨said chunk (s.run o.limits (joined chunk)).2,
          linesText (reported o (s.run o.limits (joined chunk)).2)⟩ := by
      change Transcript.mk _ ("" ++ _) = _
      rw [String.empty_append]
      rfl
    rw [front] at both
    exact both

/-- What the prompt writes to the user after the last chunk: questions for the lines that are left,
one that a leaving line answers, or else the end of the input. -/
def farewell (rest unread : List String) : String :=
  questions 0 (rest.length + 1) ++ if unread = [] then "\n" else ""

include silent in
theorem converse_rest {rest unread : List String} (unfinished : Unfinished rest)
    (testable : Testable o rest)
    (left : unread = [] ∨ rest = [] ∧ ∃ line later, unread = line :: later ∧ leaves line = true) :
    Prompt.converse o ⟨s, []⟩ ((rest ++ unread).map .line) =
        (.say (farewell rest unread), .exit successCode) ∧
      Prompt.after o ⟨s, []⟩ ((rest ++ unread).map .line) = ⟨s, rest.reverse⟩ := by
  have goes : Prompt.Goes o ⟨s, []⟩ (rest.map .line) (.say (questions 0 rest.length))
      ⟨s, rest.reverse⟩ := goes_unfinished silent [] unfinished testable
  have asked := questions_concat 0 rest.length
  rw [Nat.zero_add] at asked
  rw [List.map_append, goes.converse, goes.after]
  rcases left with rfl | ⟨rfl, line, later, rfl, leaving⟩
  · simp only [List.map_nil, Prompt.converse, Prompt.feed, Prompt.after, Transcript.say_append,
      question_eq, farewell, if_true, ← String.append_assoc, asked, and_true]
  · have fed : Prompt.feed o ⟨s, []⟩ (.line line) = (.empty, .error (.exit successCode)) := by
      have leaves : Prompt.isLeaving ⟨s, []⟩ line = true := leaving
      simp only [Prompt.feed, leaves, if_true]
    simp only [List.reverse_nil, List.map_cons, Prompt.converse, Prompt.after, fed,
      Transcript.append_empty, Transcript.say_append, and_true]
    rw [farewell, if_neg (List.cons_ne_nil line later), String.append_empty]
    rfl

/-- Without the listing, typed lines can be cut into chunks, each the shortest that is not
incomplete, and a rest. If the runs of the chunks one after another in a session come to an end, and
none with a number that is too large, and the host has stack for what comes before them, the command
with these lines is that session: but for the questions it writes what the chunks print, it reports
what they come to, and the session it leaves is theirs. The rest is kept and not run, and nothing of
a chunk is kept. -/
theorem converse_eq_session (silent : o.listing = false) (clock : Nat) (directory : Directory)
    (typed : List String) :
    (∃ chunks rest unread, Cut typed chunks rest unread) ∧
    ∀ chunks rest unread, Cut typed chunks rest unread →
      let ran := (Session.start typedFile clock).runEach o.limits (chunks.map joined)
      (∀ result ∈ ran.2, Stops result ∧ ¬ Overflows result) →
      (Session.start typedFile clock).HasRoomEach o (chunks.map joined) →
      (∀ lines ∈ rest :: chunks, Testable o lines) →
        let command := run o clock directory [] (typed.map .line)
        command.1.out = Prompt.greeting ++
          (String.join (List.zipWith said chunks ran.2) ++ farewell rest unread) ∧
        command.1.err = linesText (ran.2.flatMap (reported o)) ∧
        command.2 = .exit successCode ∧
        (Prompt.initial clock).after o (typed.map .line) = ⟨ran.1, rest.reverse⟩ := by
  refine ⟨exists_cut typed, fun chunks rest unread cut => ?_⟩
  intro ran fine room testable command
  obtain ⟨waiting, testable⟩ := List.forall_mem_cons.mp testable
  have reached : Session.Reachable [] _ (Session.start typedFile clock) :=
    .native (.empty typedFile) "clock" 0 (Session.clockFrom clock)
  have goes := goes_chunks silent reached rfl cut.complete testable room fine
  obtain ⟨told, kept⟩ := converse_rest (s := ran.1) silent cut.unfinished waiting cut.left
  have lines : typed.map Typed.line =
      chunks.flatten.map .line ++ (rest ++ unread).map .line := by
    rw [cut.whole, List.map_append]
  have conversation := goes.converse ((rest ++ unread).map .line)
  have left := goes.after ((rest ++ unread).map .line)
  rw [told, ← lines] at conversation
  rw [kept, ← lines] at left
  have opened : command =
      (.say Prompt.greeting ++
          (Prompt.converse o ⟨Session.start typedFile clock, []⟩ (typed.map .line)).1,
        (Prompt.converse o ⟨Session.start typedFile clock, []⟩ (typed.map .line)).2) := rfl
  rw [opened, conversation]
  refine ⟨rfl, ?_, rfl, left⟩
  change "" ++ (linesText _ ++ "") = _
  rw [String.empty_append, String.append_empty]

end Silent

def typedLines : List String := ["print", "1;", "a;", " exit ", "print 2;"]

def typedChunks : List (List String) := [["print", "1;"], ["a;"]]

theorem cut_typedLines : Cut typedLines typedChunks [] [" exit ", "print 2;"] := by
  have leaving : leaves " exit " = true := by decide +kernel
  refine ⟨rfl, ?_, unfinished_nil, .inr ⟨rfl, " exit ", ["print 2;"], rfl, leaving⟩⟩
  have waits : Unfinished ["print"] :=
    unfinished_concat unfinished_nil (fun _ => by decide +kernel) (by decide +kernel)
  have first : IsChunk ["print", "1;"] := isChunk_concat waits nofun (by decide +kernel)
  have second : IsChunk ["a;"] :=
    isChunk_concat unfinished_nil (fun _ => by decide +kernel) (by decide +kernel)
  intro chunk member
  rcases List.mem_cons.mp member with rfl | member
  · exact first
  · rw [List.mem_singleton.mp member]
    exact second

def typedRun : Session × List (Except Rejection Run) :=
  (Session.start typedFile 0).runEach ⟨100, 9⟩ (typedChunks.map joined)

/-- The first chunk prints its number, and the failure of the second is reported. -/
theorem converse_eq_session_leaving :
    Cut typedLines typedChunks [] [" exit ", "print 2;"] ∧
      (∀ result ∈ typedRun.2, Stops result ∧ ¬ Overflows result) ∧
      (run ⟨false, .roomy ⟨100, 9⟩⟩ 0 [] [] (typedLines.map .line)).1.out =
        Prompt.greeting ++ ">>> ... 1\n>>> >>> " ∧
      (run ⟨false, .roomy ⟨100, 9⟩⟩ 0 [] [] (typedLines.map .line)).1.err =
        "UndefinedVariableException: Undefined variable 'a' on line 1 in <stdin>\n" ∧
      (run ⟨false, .roomy ⟨100, 9⟩⟩ 0 [] [] (typedLines.map .line)).2 = .exit 0 := by
  have fine : ∀ result ∈ typedRun.2, Stops result ∧ ¬ Overflows result := by decide +kernel
  have told : String.join (List.zipWith said typedChunks typedRun.2) ++
      farewell [] [" exit ", "print 2;"] = ">>> ... 1\n>>> >>> " := by decide +kernel
  have reports : linesText (typedRun.2.flatMap (reported ⟨false, .roomy ⟨100, 9⟩⟩)) =
      "UndefinedVariableException: Undefined variable 'a' on line 1 in <stdin>\n" := by
    decide +kernel
  obtain ⟨out, err, exit, -⟩ := (converse_eq_session (o := ⟨false, .roomy ⟨100, 9⟩⟩) rfl 0 []
    typedLines).2 typedChunks [] [" exit ", "print 2;"] cut_typedLines fine
      (Session.hasRoomEach_roomy _ _ _ _) fun _ _ => testable_roomy _ _ _
  exact ⟨cut_typedLines, fine, out.trans (congrArg (Prompt.greeting ++ ·) told),
    err.trans reports, exit⟩

end Shell

end LoxMachine
