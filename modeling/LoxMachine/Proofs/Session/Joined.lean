import LoxMachine.Proofs.Machine.Depth
import LoxMachine.Proofs.Recode.Raised
import LoxMachine.Proofs.Session.Renaming

namespace LoxMachine

open Static

namespace Session

theorem read_of_parse {s : Session} {source : String} {tokens : List Token} {program : List Stmt}
    {stop : Cursor} (scanned : tokenize source = .ok tokens)
    (parsed : parse s.nextId tokens = (.ok program, stop)) :
    s.read source = ({ s with nextId := stop.nextId }, .ok program) := by
  unfold Session.read
  simp only [scanned, parsed]
  rfl

theorem parse_of_read {s : Session} {source : String} {program : List Stmt}
    (read : (s.read source).2 = .ok program) :
    ∃ tokens stop, tokenize source = .ok tokens ∧ parse s.nextId tokens = (.ok program, stop) ∧
      (s.read source).1.nextId = stop.nextId := by
  unfold Session.read at read ⊢
  cases scanned : tokenize source with
  | error faults =>
    rw [scanned] at read
    cases read
  | ok tokens =>
    simp only [scanned] at read ⊢
    cases parsed : parse s.nextId tokens with
    | mk result stop =>
      rw [parsed] at read
      cases result with
      | error e => cases read
      | ok body =>
        cases read
        exact ⟨tokens, stop, rfl, parsed, rfl⟩

theorem Accepts.later {s t : Session} {source : String} {program : List Stmt} {ds : Distances}
    (accepted : s.Accepts source program ds) {k : Nat} (numbers : t.nextId = s.nextId + k) :
    t.Accepts source (stmtsRenumber k program) (ds.renumber k) := by
  obtain ⟨tokens, stop, scanned, parsed, _⟩ := parse_of_read accepted.read
  have again := Grammar.parse_renumber parsed k
  rw [← numbers] at again
  exact ⟨congrArg Prod.snd (read_of_parse scanned again), distancesOf_renumber accepted.distances⟩

theorem accepts_after {s : Session} {source other : String} (accepted : s.isAccepted other = true) :
    ∃ program ds, (s.read source).1.Accepts other program ds := by
  obtain ⟨program, ds, accepts⟩ := exists_accepts accepted
  obtain ⟨k, numbers⟩ := Nat.exists_eq_add_of_le (nextId_of_read s source)
  exact ⟨_, _, accepts.later numbers⟩

/-- The lines of a text and of the line break behind it. -/
def linesBefore (source : String) : Nat := Text.newlines source.toList + 1

abbrev moved (s : Session) (source : String) : Recoding :=
  .laterFrom (s.read source).1.nextId (linesBefore source)

section Joined

variable {programs : List (List Stmt)} {held : List Value} {s : Session} {source other : String}
  {program next : List Stmt} {ds es : Distances}

theorem Accepts.moved_eq_later (accepted : (s.read source).1.Accepts other next es) :
    stmtsRecode (s.moved source) next = stmtsRecode (.later (linesBefore source)) next := by
  have fit : StmtsFit (· ∈ occurrencesOf next) ⟨.topLevel, .outside⟩ [] next :=
    fit_of_accepted accepted.built.2 accepted.distances fun _ here => here
  refine fit.recode_congr fun o here => laterFrom_later fun id own => ?_
  exact ((accepted.placed o here).numbered id own).1

/-- The text of two programs is accepted. -/
theorem Accepts.join (one : s.Accepts source program ds)
    (two : (s.read source).1.Accepts other next es) :
    s.Accepts (source ++ "\n" ++ other) (program ++ stmtsRecode (s.moved source) next)
      (ds ++ es) := by
  obtain ⟨tokens, stop, scanned, parsed, ended⟩ := parse_of_read one.read
  obtain ⟨tokens', stop', scanned', parsed', _⟩ := parse_of_read two.read
  obtain ⟨words, rfl, plain, joined⟩ := tokenize_join scanned scanned'
  have closed : tokens' ≠ [] := by
    rw [(tokenize_eq_ok.mp scanned').2]
    exact List.append_ne_nil_of_right_ne_nil _ (List.cons_ne_nil _ _)
  rw [ended] at parsed'
  have both := Grammar.parse_join (linesBefore source) plain rfl parsed parsed' closed
  rw [two.moved_eq_later]
  refine ⟨congrArg Prod.snd (read_of_parse joined both), distancesOf_append one.distances ?_⟩
  rw [← two.moved_eq_later]
  have respects : (s.moved source).Respects (· ∈ occurrencesOf next) := laterFrom_respects
  exact distancesOf_recode respects two.distances fun _ here => here

theorem Accepts.of_nextId {t : Session} (accepted : s.Accepts source program ds)
    (same : t.nextId = s.nextId) : t.Accepts source program ds := by
  obtain ⟨tokens, stop, scanned, parsed, _⟩ := parse_of_read accepted.read
  rw [← same] at parsed
  exact ⟨congrArg Prod.snd (read_of_parse scanned parsed), accepted.distances⟩

theorem Accepts.lookup_join (one : s.Accepts source program ds)
    (two : (s.read source).1.Accepts other next es) (id : NodeId) :
    (ds ++ es ++ s.distances).lookup id = (es ++ (ds ++ s.distances)).lookup id := by
  rw [List.lookup_append, List.lookup_append, List.lookup_append, List.lookup_append]
  by_cases below : id < (s.read source).1.nextId
  · have absent : id ∉ nodeIds (occurrencesOf next) :=
      fun inside => Nat.not_le_of_lt below (two.numbered.2.2 id inside).1
    rw [lookup_foreign two.distances absent, Option.or_none, Option.none_or]
  · have absent : id ∉ nodeIds (occurrencesOf program) :=
      fun inside => below (one.numbered.2.2 id inside).2
    rw [lookup_foreign one.distances absent, Option.none_or, Option.none_or]

theorem Accepts.older (one : s.Accepts source program ds) (sound : s.Sound programs held) :
    ∀ o, Among (program :: programs) o → ∀ id, o.id? = some id → id < (s.read source).1.nextId :=
  fun o here => (one.placed_all sound o here).numbered

theorem Accepts.inside_or_older (two : (s.read source).1.Accepts other next es)
    (one : s.Accepts source program ds) (sound : s.Sound programs held) :
    ∀ o, Among (next :: program :: programs) o → ∀ id, o.id? = some id →
      id ∈ stmtsIds next ∧ (s.read source).1.nextId ≤ id ∨
        id ∉ stmtsIds next ∧ id < (s.read source).1.nextId := by
  intro o known id own
  have later := two.built.1.2.2
  rcases among_cons.mp known with here | earlier
  · have placed := placed_of_accepted two.built.2 two.distances (K := (· ∈ stmtsIds next))
      (fun _ member => member) o here
    have member := placed.numbered id own
    exact .inl ⟨member, (later id member).1⟩
  · have older := one.older sound o earlier id own
    exact .inr ⟨fun member => Nat.not_le_of_lt older (later id member).1, older⟩

theorem Accepts.kept (one : s.Accepts source program ds) (sound : s.Sound programs held) :
    ∀ o, Among (program :: programs) o → (s.moved source : Respelling).AgreeOn .still o :=
  fun o here => laterFrom_still (one.older sound o here)

theorem Accepts.recode_first (one : s.Accepts source program ds) (sound : s.Sound programs held) :
    stmtsRecode (s.moved source) program = program := by
  have fit : StmtsFit (· ∈ occurrencesOf program) ⟨.topLevel, .outside⟩ [] program :=
    fit_of_accepted one.built.2 one.distances fun _ here => here
  rw [fit.recode_congr fun o here => one.kept sound o (among_cons.mpr (.inl here)),
    stmtsRecode_still]

theorem Accepts.recode_store (one : s.Accepts source program ds) (sound : s.Sound programs held)
    {store : Store} {shape : List Origin} (fits : store.Fits (Among (program :: programs)) shape) :
    store.recode (s.moved source) shape = store :=
  fits.recode_eq (one.kept sound) fun _ _ _ _ => rfl

/-- The run of a program with other statements behind it is that of the program, until it comes to
its end. -/
theorem Accepts.recoded_first (one : s.Accepts source program ds) (sound : s.Sound programs held)
    (discreet : s.store.Discreet) {c : Setting}
    (same : Resolves c.distances (Among (program :: programs))) (depth : Nat)
    (limit : c.depthLimit = depth) (further : List Stmt) (n : Nat)
    (final : ∀ k < n, (s.point depth program ds k).AtEnd → further = []) :
    ∃ shape, (s.point depth program ds n).Fits (Among (program :: programs)) shape ∧
      (s.point depth program ds n).Recoded (s.moved source) (Among (program :: programs)) shape
        further ⟨[], []⟩ (Machine.run c n (s.machine .done [.sequence (program ++ further)])) := by
  obtain ⟨shape, store, _⟩ := sound.store
  have more : s.store.Fits (Among (program :: programs)) shape :=
    store.mono fun o earlier => among_cons.mpr (.inr earlier)
  have start : (s.machine .done [.sequence program]).Recoded (s.moved source)
      (Among (program :: programs)) shape further ⟨[], []⟩
      (s.machine .done [.sequence (stmtsRecode (s.moved source) program ++ further)]) :=
    start_recoded (one.recode_store sound more) discreet program further
  rw [one.recode_first sound] at start
  obtain ⟨added, fits, recoded⟩ := Machine.recoded_run (c := s.setting depth ds)
    laterFrom_respects (one.resolves sound) same limit (one.start_fits sound store) start n final
  exact ⟨shape ++ added, fits, recoded⟩

theorem of_outcome_done {m : Machine} (done : m.outcome = .done) :
    m.control = .done ∧ m.frames = [] := by
  unfold Machine.outcome at done
  split at done <;> simp_all

theorem of_outcome_failed {m : Machine} {f : Failure} (failed : m.outcome = .failed f) :
    m.control = .failing f ∧ m.frames = [] := by
  unfold Machine.outcome at failed
  split at failed <;> simp_all

theorem over_of_recoded {ϕ : Recoding} {G : Occurrence → Prop} {shape : List Origin}
    {further : List Stmt} {before : Record} {m other : Machine} (none_left : m.frames = [])
    (recoded : m.Recoded ϕ G shape further before other) :
    other.frames = [] ∧ m.control.Recoded ϕ G other.control ∧ (m.control = .done → further = []) := by
  cases recoded with
  | going parallel =>
    have frames := parallel.frames
    rw [none_left] at frames
    cases frames
  | ended beside halted left right control final => exact ⟨right, control, final⟩

theorem atEnd_of_recoded {ϕ : Recoding} {G : Occurrence → Prop} {shape : List Origin}
    {further : List Stmt} {before : Record} {m other : Machine} (ended : m.AtEnd)
    (recoded : m.Recoded ϕ G shape further before other) :
    other.control = .done ∧ other.frames = [.sequence further] := by
  obtain ⟨control, frames, scope, depth, store, printed, classes⟩ := m
  obtain ⟨control', frames', scope', depth', store', printed', classes'⟩ := other
  obtain ⟨rfl, rfl⟩ := ended
  cases recoded with
  | ended _ _ none_left => cases none_left
  | going parallel control =>
    cases control
    obtain ⟨_, corresponding⟩ := parallel
    cases corresponding with
    | last body => exact ⟨rfl, rfl⟩
    | cons first later => cases later

theorem Accepts.atEnd_of_done (one : s.Accepts source program ds) (sound : s.Sound programs held)
    (discreet : s.store.Discreet) {depth n : Nat}
    (done : (s.point depth program ds n).outcome = .done) :
    ∃ k < n, (s.point depth program ds k).AtEnd := by
  -- With a statement behind it the run would go on, unless it has come to the end of the program.
  refine Classical.byContradiction fun never => ?_
  obtain ⟨shape, fits, recoded⟩ := one.recoded_first sound discreet (c := s.setting depth ds)
    (one.resolves sound) depth rfl [.block 0 []] n fun k sooner ended => absurd ⟨k, sooner, ended⟩ never
  obtain ⟨control, frames⟩ := of_outcome_done done
  obtain ⟨_, _, final⟩ := over_of_recoded frames recoded
  exact nomatch final control

theorem point_of_atEnd {depth k : Nat} (ended : (s.point depth program ds k).AtEnd) (n : Nat) :
    s.point depth program ds (k + (n + 1)) =
      { s.point depth program ds k with control := .done, frames := [] } := by
  unfold point at ended ⊢
  rw [Machine.run_add, Machine.run_of_atEnd ended]

theorem atEnd_once {depth k n : Nat} (ended : (s.point depth program ds k).AtEnd)
    (later : k < n) : ¬ (s.point depth program ds n).AtEnd := by
  intro again
  obtain ⟨more, rfl⟩ := Nat.exists_eq_add_of_lt later
  have passed := point_of_atEnd ended more
  rw [← Nat.add_assoc] at passed
  rw [passed] at again
  exact nomatch again.2

/-- A program that fails never comes to its end. -/
theorem open_of_failed {limits : Limits} {f : Failure}
    (failed : (s.shown limits program ds).outcome = .failed f) (k : Nat) :
    ¬ (s.point limits.depth program ds k).AtEnd := by
  intro ended
  obtain ⟨control, frames⟩ := of_outcome_failed failed
  have halted : (s.point limits.depth program ds limits.steps).isOver = true := by
    rw [Machine.isOver, control, frames]
    rfl
  rcases Nat.lt_or_ge k limits.steps with sooner | later
  · obtain ⟨more, steps⟩ := Nat.exists_eq_add_of_lt sooner
    have last := point_of_atEnd ended more
    rw [← Nat.add_assoc, ← steps] at last
    rw [last] at control
    cases control
  · obtain ⟨more, rfl⟩ := Nat.exists_eq_add_of_le later
    have stays : s.point limits.depth program ds (limits.steps + more) =
        s.point limits.depth program ds limits.steps := by
      unfold point at halted ⊢
      rw [Machine.run_add, Machine.run_of_over halted]
    rw [stays] at ended
    cases frames.symm.trans ended.2

theorem eq_of_beside {ϕ : Recoding} {shape : List Origin} {m other : Machine}
    (beside : m.Beside ϕ shape ⟨[], []⟩ other) (kept : m.store.recode ϕ shape = m.store)
    (control : other.control = m.control) : other = { m with frames := other.frames } := by
  obtain ⟨control', frames', scope', depth', store', printed', classes'⟩ := other
  obtain rfl : control' = m.control := control
  obtain rfl : scope' = m.scope := beside.scope
  obtain rfl : depth' = m.depth := beside.depth
  obtain rfl : store' = m.store := beside.store.trans kept
  obtain rfl : printed' = m.printed := beside.printed.trans (List.append_nil _)
  obtain rfl : classes' = m.classes := beside.classes.trans (List.append_nil _)
  rfl

section Second

variable {limits : Limits}
  (sound : s.Sound programs held)
  (after : (s.after limits source program ds).Sound (program :: programs) held)
  (one : s.Accepts source program ds) (two : (s.read source).1.Accepts other next es)

include after one two in
theorem Accepts.resolves_join :
    Resolves (ds ++ es ++ s.distances) (Among (next :: program :: programs)) := by
  have accepted : (s.after limits source program ds).Accepts other next es := two.of_nextId rfl
  intro id name levels known
  rw [one.lookup_join two]
  exact accepted.resolves after id name levels known

include sound after one two in
theorem Accepts.recoded_join (discreet : s.store.Discreet) (depth n : Nat)
    (final : ∀ k < n, (s.point depth program ds k).AtEnd →
      stmtsRecode (s.moved source) next = []) :
    ∃ shape, (s.point depth program ds n).Fits (Among (program :: programs)) shape ∧
      (s.point depth program ds n).Recoded (s.moved source) (Among (program :: programs)) shape
        (stmtsRecode (s.moved source) next) ⟨[], []⟩
        (s.point depth (program ++ stmtsRecode (s.moved source) next) (ds ++ es) n) := by
  have resolves := one.resolves_join after two
  exact one.recoded_first sound discreet (c := s.setting depth (ds ++ es))
    (fun id name levels known => resolves id name levels (among_cons.mpr (.inr known))) depth rfl _ n
    final

include sound after one two in
theorem Accepts.point_join (discreet : s.store.Discreet) {depth k : Nat}
    (ended : (s.point depth program ds k).AtEnd) :
    s.point depth (program ++ stmtsRecode (s.moved source) next) (ds ++ es) k =
      { s.point depth program ds k with
        frames := [.sequence (stmtsRecode (s.moved source) next)] } := by
  obtain ⟨shape, fits, recoded⟩ := Accepts.recoded_join sound after one two discreet depth k
    fun j sooner earlier => absurd ended (atEnd_once earlier sooner)
  obtain ⟨control, frames⟩ := atEnd_of_recoded ended recoded
  rw [eq_of_beside recoded.beside (one.recode_store sound fits.store) (control.trans ended.1.symm),
    frames]

include sound one in
theorem Accepts.depth_of_atEnd {depth k : Nat} (ended : (s.point depth program ds k).AtEnd) :
    (s.point depth program ds k).depth = 0 := by
  obtain ⟨shape, store, _⟩ := sound.store
  have counted : (s.point depth program ds k).Counted :=
    Machine.counted_run (c := s.setting depth ds) (one.resolves sound) (one.start_fits sound store) rfl k
  rw [counted, ended.2]
  rfl

include sound after one two in
/-- From the end of the first program on, the text of both programs runs like the second one. -/
theorem Accepts.recoded_second (discreet : s.store.Discreet) {k : Nat}
    (ended : (s.point limits.depth program ds k).AtEnd) (sooner : k < limits.steps) (n : Nat) :
    ∃ shape,
      ((s.after limits source program ds).point limits.depth next es n).Fits
        (Among (next :: program :: programs)) shape ∧
      ((s.after limits source program ds).point limits.depth next es n).Recoded (s.moved source)
        (Among (next :: program :: programs)) shape []
        ⟨(s.point limits.depth program ds k).printed, (s.point limits.depth program ds k).classes⟩
        (s.point limits.depth (program ++ stmtsRecode (s.moved source) next) (ds ++ es) (k + n)) := by
  obtain ⟨later, steps⟩ := Nat.exists_eq_add_of_lt sooner
  have last := point_of_atEnd ended later
  rw [← Nat.add_assoc, ← steps] at last
  obtain ⟨first_shape, first_fits, first⟩ := Accepts.recoded_join sound after one two discreet
    limits.depth k fun j sooner earlier => absurd ended (atEnd_once earlier sooner)
  have joined := Accepts.point_join sound after one two discreet ended
  obtain ⟨shape, store, _⟩ := after.store
  have left_store : (s.after limits source program ds).store =
      (s.point limits.depth program ds k).store := (congrArg Machine.store last).trans rfl
  have left_scope : (s.after limits source program ds).scope =
      (s.point limits.depth program ds k).scope := (congrArg Machine.scope last).trans rfl
  have accepted : (s.after limits source program ds).Accepts other next es := two.of_nextId rfl
  have start : ((s.after limits source program ds).machine .done [.sequence next]).Recoded
      (s.moved source) (Among (next :: program :: programs)) shape []
      ⟨(s.point limits.depth program ds k).printed, (s.point limits.depth program ds k).classes⟩
      (s.point limits.depth (program ++ stmtsRecode (s.moved source) next) (ds ++ es) k) := by
    rw [joined]
    refine .going ⟨⟨left_scope.symm, one.depth_of_atEnd sound ended, ?_, ?_, rfl, rfl⟩, ?_⟩ ?_
    · exact left_store.symm.trans (one.recode_store sound store).symm
    · change (s.after limits source program ds).store.Discreet
      rw [left_store]
      exact first.beside.discreet
    · rw [← List.append_nil (stmtsRecode _ next)]
      exact .last next
    · rw [ended.1]
      exact .done
  obtain ⟨added, fits, recoded⟩ := @Machine.recoded_run _ _ _ _ _
    ((s.after limits source program ds).setting limits.depth es)
    (s.setting limits.depth (ds ++ es)) _ _ laterFrom_respects (accepted.resolves after)
    (one.resolves_join after two) rfl (accepted.start_fits after store) start n fun _ _ _ => rfl
  refine ⟨shape ++ added, fits, ?_⟩
  unfold point at recoded ⊢
  rw [Machine.run_add]
  exact recoded

include sound after one two in
theorem Accepts.waits_join (discreet : s.store.Discreet) {depth n : Nat}
    (open_still : ∀ k < n, ¬ (s.point depth program ds k).AtEnd) :
    ∃ waiting, s.point depth (program ++ stmtsRecode (s.moved source) next) (ds ++ es) n =
        { s.point depth program ds n with frames := waiting } ∧
      ((s.point depth program ds n).frames = [] → waiting = []) := by
  obtain ⟨shape, fits, recoded⟩ := Accepts.recoded_join sound after one two discreet depth n
    fun k sooner ended => absurd ended (open_still k sooner)
  have control := fits.control_eq (one.kept sound) (laterFrom_keepsWords _ _) recoded.control
  refine ⟨_, eq_of_beside recoded.beside (one.recode_store sound fits.store) control, ?_⟩
  exact fun none_left => (over_of_recoded none_left recoded).1

end Second

/-- The run of a program fails with a complaint of the phrase that has the node and the token. -/
def Raises (s : Session) (depth : Nat) (program : List Stmt) (ds : Distances) :
    NodeId → Token → Complaint → Prop :=
  Machine.Raises (s.setting depth ds) (s.machine .done [.sequence program])

/-- What the run of two texts in one shows and leaves, beside what the run of the first showed and
that of the second then does; `one` and `two` are the phrases that raise complaints in that of the
second and in that of both. -/
structure Continues (one two : NodeId → Token → Complaint → Prop) (inside : NodeId → Prop)
    (lines : Nat) (first : Run) (second both : Session × Run) : Prop where
  printed : both.2.printed = first.printed ++ second.2.printed
  classes : both.2.classes = first.classes ++ second.2.classes
  outcome : second.2.outcome.Moved one two inside lines both.2.outcome
  globals : both.1.globalTexts = second.1.globalTexts

section Second

variable {limits : Limits}
  (sound : s.Sound programs held)
  (after : (s.after limits source program ds).Sound (program :: programs) held)
  (one : s.Accepts source program ds) (two : (s.read source).1.Accepts other next es)

include sound after one two in
/-- If the first program comes to its end, one run of both goes on with the second. -/
theorem Accepts.continues_join (discreet : s.store.Discreet) {k : Nat}
    (ended : (s.point limits.depth program ds k).AtEnd) (sooner : k < limits.steps) (n : Nat) :
    Continues ((s.after limits source program ds).Raises limits.depth next es)
      (s.Raises limits.depth (program ++ stmtsRecode (s.moved source) next) (ds ++ es))
      (· ∈ stmtsIds next) (linesBefore source) (s.shown limits program ds)
      ((s.after limits source program ds).after ⟨n, limits.depth⟩ other next es,
        (s.after limits source program ds).shown ⟨n, limits.depth⟩ next es)
      (s.after ⟨k + n, limits.depth⟩ (source ++ "\n" ++ other)
          (program ++ stmtsRecode (s.moved source) next) (ds ++ es),
        s.shown ⟨k + n, limits.depth⟩ (program ++ stmtsRecode (s.moved source) next) (ds ++ es)) := by
  obtain ⟨shape, fits, recoded⟩ :=
    Accepts.recoded_second sound after one two discreet ended sooner n
  obtain ⟨later, steps⟩ := Nat.exists_eq_add_of_lt sooner
  have last := point_of_atEnd ended later
  rw [← Nat.add_assoc, ← steps] at last
  have beside := recoded.beside
  have printed : (s.shown limits program ds).printed =
      (s.point limits.depth program ds k).printed.reverse :=
    (congrArg (fun m : Machine => m.printed.reverse) last).trans rfl
  have classes : (s.shown limits program ds).classes =
      (s.point limits.depth program ds k).classes.reverse :=
    (congrArg (fun m : Machine => m.classes.reverse) last).trans rfl
  refine ⟨?_, ?_, ?_, globalTexts_recode fits.store beside.store⟩
  · rw [printed]
    exact (congrArg List.reverse beside.printed).trans List.reverse_append
  · rw [classes]
    exact (congrArg List.reverse beside.classes).trans List.reverse_append
  · have along := Accepts.recoded_second sound after one two discreet ended sooner
    have silent : ∀ body, ∀ frame ∈ [Frame.sequence body], frame.blame = none :=
      fun body => List.forall_mem_singleton.mpr rfl
    change (Machine.outcome _).Moved _ _ _ _ (Machine.outcome _)
    rcases outcomes_of_recoded fits recoded with
      ⟨done, done'⟩ | ⟨f, f', failed, failed', alike⟩ | ⟨unfinished, unfinished'⟩
    · rw [done, done']
      exact .done
    · rw [failed, failed']
      exact .failed (Machine.moved_of_recoded along (two.inside_or_older one sound) (silent _) rfl
        (silent _) rfl (of_outcome_failed failed).1 (of_outcome_failed failed').1 alike)
    · rw [unfinished, unfinished']
      exact .unfinished

end Second

/-- If the first of two accepted texts runs to its end, one run of both shows what the run of the
first and then that of the second show; here `k` is the number of steps of the first. A complaint is
raised by the same phrase in both, and its line is further down by the lines before the second text
if the phrase stands in that, and the same if it stands in an earlier text. If the first one fails,
one run of both fails alike, and no state of it differs from the one in the run of the first alone
but in what waits. -/
theorem continues_of_accepted (reached : Reachable programs held s) (discreet : s.store.Discreet)
    (one : s.Accepts source program ds) (two : s.isAccepted other = true) (limits : Limits) :
    ∃ t r next es both cs, s.run limits source = (t, .ok r) ∧ t.Accepts other next es ∧
      s.Accepts (source ++ "\n" ++ other) both cs ∧
      (r.outcome = .done → ∃ k < limits.steps, ∀ n, ∃ u q v w,
        t.run ⟨n, limits.depth⟩ other = (u, .ok q) ∧
        s.run ⟨k + n, limits.depth⟩ (source ++ "\n" ++ other) = (v, .ok w) ∧
        Continues (t.Raises limits.depth next es) (s.Raises limits.depth both cs)
          (· ∈ stmtsIds next) (linesBefore source) r (u, q) (v, w)) ∧
      ∀ f, r.outcome = .failed f →
        (∃ u, s.run limits (source ++ "\n" ++ other) = (u, .ok r) ∧ u.store = t.store) ∧
          ∀ n, ∃ waiting, s.point limits.depth both cs n =
            { s.point limits.depth program ds n with frames := waiting } := by
  have sound := sound_of_reachable reached
  obtain ⟨next, es, two⟩ := accepts_after two
  have joined := one.join two
  have later : (s.after limits source program ds).Accepts other next es := two.of_nextId rfl
  refine ⟨_, _, next, es, _, _, run_of_accepts one limits, later, joined, fun done => ?_,
    fun f failed => ?_⟩
  · have after := sound_of_reachable (.ran reached limits one (by rw [done]; nofun))
    obtain ⟨k, sooner, ended⟩ := one.atEnd_of_done sound discreet done
    refine ⟨k, sooner, fun n => ⟨_, _, _, _, run_of_accepts later _, run_of_accepts joined _, ?_⟩⟩
    exact Accepts.continues_join sound after one two discreet ended sooner n
  · have after := sound_of_reachable (.ran reached limits one (by rw [failed]; nofun))
    have waits (n : Nat) := @Accepts.waits_join _ _ _ _ _ _ _ _ _ limits sound after one two discreet
      limits.depth n fun k _ => open_of_failed failed k
    constructor
    · obtain ⟨waiting, same, none_left⟩ := waits limits.steps
      have frames := (of_outcome_failed failed).2
      obtain rfl := none_left frames
      have alike : s.point limits.depth (program ++ stmtsRecode (s.moved source) next) (ds ++ es)
          limits.steps = s.point limits.depth program ds limits.steps :=
        same.trans (congrArg (fun waiting => { s.point limits.depth program ds limits.steps with
          frames := waiting }) frames.symm)
      have left_store : (s.after limits (source ++ "\n" ++ other)
          (program ++ stmtsRecode (s.moved source) next) (ds ++ es)).store =
          (s.after limits source program ds).store := congrArg Machine.store alike
      refine ⟨_, (run_of_accepts joined limits).trans ?_, left_store⟩
      unfold shown
      rw [alike]
    · intro n
      obtain ⟨waiting, same, _⟩ := waits n
      exact ⟨waiting, same⟩

end Joined

theorem discreet_start (file : String) (microseconds : Nat) :
    (start file microseconds).store.Discreet := by
  intro index entry found
  cases index with
  | zero =>
    cases found
    exact fun _ _ _ _ => ⟨rfl, True.intro⟩
  | succ index => cases found

def truthProgram : List Stmt := [.var 2 ⟨.identifier, "a", 1⟩ (some (.literal 1 (.bool true)))]

/-- The second text fails on its second line, which is the third of both. -/
theorem continues_of_truth :
    let s := start "main" 0
    let other := "print a;\nprint b;"
    s.Accepts "var a = true;" truthProgram [] ∧ s.isAccepted other = true ∧
      ∃ t r next es both cs, s.run ⟨9, 9⟩ "var a = true;" = (t, .ok r) ∧ r.outcome = .done ∧
        t.Accepts other next es ∧
        ∃ k < 9, ∀ n, ∃ u q v w, t.run ⟨n, 9⟩ other = (u, .ok q) ∧
          s.run ⟨k + n, 9⟩ ("var a = true;" ++ "\n" ++ other) = (v, .ok w) ∧
          Continues (t.Raises 9 next es) (s.Raises 9 both cs) (· ∈ stmtsIds next)
            (linesBefore "var a = true;") r (u, q) (v, w) := by
  intro s other
  have reached : Reachable [] _ s := .native (.empty "main") "clock" 0 (clockFrom 0)
  have accepted : s.Accepts "var a = true;" truthProgram [] := ⟨by rfl, by rfl⟩
  have second : s.isAccepted other = true := by decide +kernel
  have done : (s.shown ⟨9, 9⟩ truthProgram []).outcome = .done := by rfl
  obtain ⟨t, r, next, es, both, cs, run, read, _, continues, _⟩ :=
    continues_of_accepted reached (discreet_start "main" 0) accepted second ⟨9, 9⟩
  cases run.symm.trans (run_of_accepts accepted ⟨9, 9⟩)
  exact ⟨accepted, second, _, _, next, es, both, cs, run, done, read, continues done⟩

end Session

end LoxMachine
