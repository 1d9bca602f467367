import LoxMachine.Machine.Session
import LoxMachine.Proofs.Grammar.Builds
import LoxMachine.Proofs.Scope.Places
import LoxMachine.Proofs.Machine.Preservation
import LoxMachine.Proofs.Machine.Growth

namespace LoxMachine

open Static

def Static.Among (programs : List (List Stmt)) (o : Occurrence) : Prop :=
  ∃ program ∈ programs, o ∈ occurrencesOf program

theorem Static.among_cons {program : List Stmt} {programs : List (List Stmt)} {o : Occurrence} :
    Among (program :: programs) o ↔ o ∈ occurrencesOf program ∨ Among programs o := by
  simp [Among]

/-- A scope binds a name to the value, an object has a field with it, or a function of the host was
given it. -/
def Store.Holds (s : Store) (a : Value) : Prop :=
  (∃ e name, s.scopes.get e name = .ok a) ∨ (∃ o name, (s.fieldsOf o).get? name = some a) ∨
    a ∈ s.kept

theorem Store.Fits.holds {G : Occurrence → Prop} {shape : List Origin} {s : Store} {a : Value}
    (fits : s.Fits G shape) (holds : s.Holds a) : a.Fits (s.world G shape) := by
  rcases holds with ⟨e, name, found⟩ | ⟨o, name, found⟩ | given
  · exact fits.get found
  · exact fits.field found
  · exact fits.kept a given

namespace Session

/-- What a run of a program with these distances looks up. -/
def setting (s : Session) (depth : Nat) (ds : Distances) : Setting := ⟨ds ++ s.distances, depth⟩

/-- The state of a run of a program after so many steps. -/
def point (s : Session) (depth : Nat) (program : List Stmt) (ds : Distances) (n : Nat) : Machine :=
  Machine.run (s.setting depth ds) n (s.machine .done [.sequence program])

/-- The text is scanned and parsed as the program, which breaks no static rule. -/
structure Accepts (s : Session) (source : String) (program : List Stmt) (ds : Distances) : Prop where
  read : (s.read source).2 = .ok program
  distances : distancesOf program = .ok ds

/-- The text is scanned and parsed as some program that breaks no static rule. -/
def isAccepted (s : Session) (source : String) : Bool :=
  match (s.read source).2 with
  | .ok program => (distancesOf program).isOk
  | .error _ => false

theorem exists_accepts {s : Session} {source : String} (accepted : s.isAccepted source = true) :
    ∃ program ds, s.Accepts source program ds := by
  unfold isAccepted at accepted
  split at accepted
  · rename_i program read
    cases distances : distancesOf program with
    | ok ds => exact ⟨program, ds, read, distances⟩
    | error e =>
      rw [distances] at accepted
      cases accepted
  · cases accepted

/-- The session after a program was run. -/
def after (s : Session) (limits : Limits) (source : String) (program : List Stmt)
    (ds : Distances) : Session :=
  let m := s.point limits.depth program ds limits.steps
  { s with
    store := m.store
    scope := m.scope
    distances := ds ++ s.distances
    nextId := (s.read source).1.nextId }

/-- What a run of a program shows. -/
def shown (s : Session) (limits : Limits) (program : List Stmt) (ds : Distances) : Run :=
  let m := s.point limits.depth program ds limits.steps
  { outcome := m.outcome, printed := m.printed.reverse, classes := m.classes.reverse }

/-- Sessions that a host can bring about, with the programs that were run and the values that the
host keeps. -/
inductive Reachable : List (List Stmt) → List Value → Session → Prop
  | empty (file : String) : Reachable [] [] (Session.empty file)
  | keep {programs held s a} (reached : Reachable programs held s) (holds : s.store.Holds a) :
      Reachable programs (a :: held) s
  | native {programs held s} (reached : Reachable programs held s) (name : String) (arity : Nat)
      (function : HostFunction) :
      Reachable programs ((s.defineNative name arity function).2 :: held)
        (s.defineNative name arity function).1
  | setGlobal {programs held s a} (reached : Reachable programs held s) (name : String)
      (known : a ∈ held ∨ ∃ l : Literal, a = l.toValue) :
      Reachable programs held (s.setGlobal name a)
  | entrust {programs held s a} (reached : Reachable programs held s)
      (known : a ∈ held ∨ ∃ l : Literal, a = l.toValue) : Reachable programs held (s.entrust a)
  | rejected {programs held s t limits source rejection} (reached : Reachable programs held s)
      (result : s.run limits source = (t, .error rejection)) : Reachable programs held t
  | ran {programs held s source program ds} (reached : Reachable programs held s) (limits : Limits)
      (accepted : s.Accepts source program ds)
      (ended : (s.shown limits program ds).outcome ≠ .unfinished) :
      Reachable (program :: programs) held (s.after limits source program ds)

/-- What a host can hand in is what it holds or could write down. -/
theorem of_known {P : Value → Prop} {held : List Value} {a : Value}
    (each : ∀ b ∈ held, P b) (literal : ∀ l : Literal, P l.toValue)
    (known : a ∈ held ∨ ∃ l : Literal, a = l.toValue) : P a := by
  rcases known with kept | ⟨l, rfl⟩
  · exact each a kept
  · exact literal l

theorem read_eq (s : Session) (source : String) :
    (s.read source).1 = { s with nextId := (s.read source).1.nextId } := by
  unfold read
  split <;> rfl

theorem read_of_tokenize {source : String} {tokens : List Token}
    (scanned : tokenize source = .ok tokens) (s : Session) :
    (s.read source).2 = (parse s.nextId tokens).1.mapError .grammar := by
  unfold read
  rw [scanned]

theorem nextId_of_read (s : Session) (source : String) : s.nextId ≤ (s.read source).1.nextId := by
  unfold read
  split
  · exact Nat.le_refl _
  · exact nextId_of_parse _ _

theorem built_of_read {s : Session} {source : String} {program : List Stmt}
    (read : (s.read source).2 = .ok program) :
    StmtsBuilt s.nextId (s.read source).1.nextId program := by
  unfold Session.read at read ⊢
  split at read
  · cases read
  · rename_i tokens scanned
    cases result : parse s.nextId tokens with
    | mk outcome stop =>
      simp only [result] at read
      cases outcome with
      | error e => cases read
      | ok body =>
        cases read
        exact built_of_parse (genuine_of_tokenize scanned) result

theorem Accepts.built {s : Session} {source : String} {program : List Stmt} {ds : Distances}
    (accepted : s.Accepts source program ds) :
    StmtsBuilt s.nextId (s.read source).1.nextId program := built_of_read accepted.read

theorem interpret_eq (s : Session) (limits : Limits) (source : String) (program : List Stmt)
    (ds : Distances) : (s.read source).1.interpret limits program ds =
      (s.after limits source program ds, s.shown limits program ds) := by
  unfold after shown point setting interpret settle machine
  rw [read_eq s source]

theorem run_of_accepts {s : Session} {source : String} {program : List Stmt} {ds : Distances}
    (accepted : s.Accepts source program ds) (limits : Limits) :
    s.run limits source = (s.after limits source program ds, .ok (s.shown limits program ds)) := by
  have result := interpret_eq s limits source program ds
  have read := accepted.read
  unfold run
  cases parsed : s.read source with
  | mk t outcome =>
    simp only [parsed] at result read
    subst read
    simp only [accepted.distances, result]

theorem eq_of_rejected {s t : Session} {limits : Limits} {source : String} {rejection : Rejection}
    (result : s.run limits source = (t, .error rejection)) : t = (s.read source).1 := by
  unfold run at result
  split at result
  · rename_i u r read
    cases result
    rw [read]
  · rename_i u program read
    split at result
    · cases result
      rw [read]
    · cases result

theorem accepts_of_ran {s t : Session} {limits : Limits} {source : String} {r : Run}
    (ran : s.run limits source = (t, .ok r)) : ∃ program ds, s.Accepts source program ds := by
  unfold Session.run at ran
  split at ran
  · cases ran
  · rename_i u program read
    cases distances : distancesOf program with
    | error e =>
      rw [distances] at ran
      cases ran
    | ok ds => exact ⟨program, ds, congrArg Prod.snd read, distances⟩

theorem reachable_run {programs : List (List Stmt)} {held : List Value} {s : Session}
    (reached : Reachable programs held s) (limits : Limits) (source : String)
    (ended : ∀ r, (s.run limits source).2 = .ok r → r.outcome ≠ .unfinished) :
    ∃ programs, Reachable programs held (s.run limits source).1 := by
  cases result : (s.run limits source).2 with
  | error rejection => exact ⟨programs, .rejected reached (Prod.ext rfl result)⟩
  | ok r =>
    have ran : s.run limits source = ((s.run limits source).1, .ok r) := Prod.ext rfl result
    obtain ⟨program, ds, accepted⟩ := accepts_of_ran ran
    have same := run_of_accepts accepted limits
    have shown : s.shown limits program ds = r :=
      Except.ok.inj (congrArg Prod.snd (same.symm.trans ran))
    rw [same]
    exact ⟨program :: programs, .ran reached limits accepted (shown ▸ ended r result)⟩

/-- A session whose store fits the programs that were run. -/
structure Sound (programs : List (List Stmt)) (held : List Value) (s : Session) : Prop where
  top : s.scope = Store.globals
  store : ∃ shape, s.store.Fits (Among programs) shape ∧
    ∀ a ∈ held, a.Fits (s.store.world (Among programs) shape)
  resolves : Resolves s.distances (Among programs)
  fresh : ∀ id, s.nextId ≤ id → s.distances.lookup id = none
  placed : ∀ o, Among programs o → o.Placed (· < s.nextId) (Among programs)
  unique : ∀ o other id, Among programs o → Among programs other → o.node? = some id →
    other.node? = some id → o = other

section Accepted

variable {programs : List (List Stmt)} {held : List Value} {s : Session} {source : String}
  {program : List Stmt} {ds : Distances}

theorem Accepts.numbered (accepted : s.Accepts source program ds) :
    Numbered s.nextId (s.read source).1.nextId (nodeIds (occurrencesOf program)) :=
  numbered_nodes accepted.built.1

theorem Accepts.placed (accepted : s.Accepts source program ds) :
    ∀ o ∈ occurrencesOf program,
      o.Placed (fun i => s.nextId ≤ i ∧ i < (s.read source).1.nextId) (· ∈ occurrencesOf program) :=
  placed_of_accepted accepted.built.2 accepted.distances accepted.built.1.2.2

theorem Accepts.apart (accepted : s.Accepts source program ds) (sound : s.Sound programs held)
    {o other : Occurrence} {id : NodeId} (here : o ∈ occurrencesOf program) (own : o.id? = some id)
    (earlier : Among programs other) (same : other.id? = some id) : False :=
  Nat.lt_irrefl id (Nat.lt_of_lt_of_le ((sound.placed other earlier).numbered id same)
    ((accepted.placed o here).numbered id own).1)

theorem Accepts.resolves (accepted : s.Accepts source program ds) (sound : s.Sound programs held) :
    Resolves (ds ++ s.distances) (Among (program :: programs)) := by
  have numbered := accepted.numbered
  intro id name levels member
  rw [List.lookup_append]
  rcases among_cons.mp member with here | earlier
  · have free := sound.fresh id (numbered.2.2 id (mem_nodeIds here rfl)).1
    rw [distances_eq_among accepted.distances, lookup_among numbered.2.1 here, free, Option.or_none]
  · have older := (sound.placed _ earlier).numbered id rfl
    have other : id ∉ nodeIds (occurrencesOf program) :=
      fun inside => Nat.lt_irrefl id (Nat.lt_of_lt_of_le older (numbered.2.2 id inside).1)
    rw [lookup_foreign accepted.distances other, Option.none_or]
    exact sound.resolves id name levels earlier

theorem Accepts.fresh (accepted : s.Accepts source program ds) (sound : s.Sound programs held) :
    ∀ id, (s.read source).1.nextId ≤ id → (ds ++ s.distances).lookup id = none := by
  have numbered := accepted.numbered
  intro id free
  have other : id ∉ nodeIds (occurrencesOf program) :=
    fun inside => Nat.lt_irrefl id (Nat.lt_of_lt_of_le (numbered.2.2 id inside).2 free)
  rw [List.lookup_append, lookup_foreign accepted.distances other, Option.none_or]
  exact sound.fresh id (Nat.le_trans numbered.1 free)

theorem Accepts.placed_all (accepted : s.Accepts source program ds)
    (sound : s.Sound programs held) : ∀ o, Among (program :: programs) o →
      o.Placed (· < (s.read source).1.nextId) (Among (program :: programs)) := by
  intro o member
  rcases among_cons.mp member with here | earlier
  · exact (accepted.placed o here).mono (fun _ between => between.2)
      fun _ known => among_cons.mpr (.inl known)
  · exact (sound.placed o earlier).mono
      (fun _ below => Nat.lt_of_lt_of_le below accepted.numbered.1)
      fun _ known => among_cons.mpr (.inr known)

theorem Accepts.unique (accepted : s.Accepts source program ds) (sound : s.Sound programs held) :
    ∀ o other id, Among (program :: programs) o → Among (program :: programs) other →
      o.node? = some id → other.node? = some id → o = other := by
  intro o other id one two node same
  rcases among_cons.mp one with here | earlier <;> rcases among_cons.mp two with here' | earlier'
  · exact node_unique accepted.numbered.2.1 here here' node same
  · exact (accepted.apart sound here (Occurrence.id_of_node node) earlier' (Occurrence.id_of_node same)).elim
  · exact (accepted.apart sound here' (Occurrence.id_of_node same) earlier (Occurrence.id_of_node node)).elim
  · exact sound.unique o other id earlier earlier' node same

theorem Accepts.start_fits (accepted : s.Accepts source program ds) (sound : s.Sound programs held)
    {shape : List Origin} (store : s.store.Fits (Among programs) shape) :
    (s.machine .done [.sequence program]).Fits (Among (program :: programs)) shape := by
  have fit : StmtsFit (Among (program :: programs)) ⟨.topLevel, .outside⟩ [] program :=
    fit_of_accepted accepted.built.2 accepted.distances fun o here => among_cons.mpr (.inl here)
  have more : s.store.Fits (Among (program :: programs)) shape :=
    store.mono fun o earlier => among_cons.mpr (.inr earlier)
  refine .done ⟨.topLevel, .outside⟩ [] rfl ⟨more, .sequence fit ?_⟩ sound.top
  rw [addAll_nil]
  change FramesFit _ _ s.scope []
  rw [sound.top]
  exact .nil

theorem Accepts.fits (accepted : s.Accepts source program ds) (sound : s.Sound programs held)
    (depth n : Nat) :
    ∃ shape, (s.point depth program ds n).Fits (Among (program :: programs)) shape ∧
      ∀ a ∈ held, a.Fits ((s.point depth program ds n).world (Among (program :: programs)) shape) := by
  obtain ⟨shape, store, held_fit⟩ := sound.store
  have more : ∀ o, Among programs o → Among (program :: programs) o :=
    fun o earlier => among_cons.mpr (.inr earlier)
  obtain ⟨added, last⟩ := Machine.fits_run (c := s.setting depth ds) (accepted.resolves sound) n
    (accepted.start_fits sound store)
  refine ⟨shape ++ added, last, fun a member => (held_fit a member).later ?_⟩
  exact ⟨more, List.prefix_append shape added,
    Machine.grows_run (s.setting depth ds) (s.machine .done [.sequence program]) n⟩

end Accepted

theorem over_of_fits {G : Occurrence → Prop} {shape : List Origin} {m : Machine}
    (fits : m.Fits G shape) (halted : m.isOver = true) :
    m.scope = Store.globals ∧
      (m.outcome = .done ∨ ∃ f, m.outcome = .failed f ∧ f.Admissible) := by
  obtain ⟨control, frames, scope, depth, store, printed, classes⟩ := m
  cases fits with
  | evaluate p at_phrase expects stands fits awaited =>
    cases at_phrase
    cases halted
  | execute context levels at_phrase expects stands fits =>
    cases at_phrase
    cases halted
  | value p at_phrase expects stands fits =>
    cases at_phrase
    cases List.isEmpty_iff.mp halted
    nomatch expects.frames
  | done context levels at_phrase expects stands =>
    cases at_phrase
    cases List.isEmpty_iff.mp halted
    cases expects.frames
    exact ⟨rfl, .inl rfl⟩
  | returning context levels at_phrase expects inside fits =>
    cases at_phrase
    cases List.isEmpty_iff.mp halted
    cases expects.frames
    exact absurd rfl inside
  | @failing f demand at_phrase expects admissible =>
    cases at_phrase
    cases List.isEmpty_iff.mp halted
    cases expects.frames
    exact ⟨rfl, .inr ⟨f, rfl, admissible⟩⟩

theorem over_of_outcome {m : Machine} (ended : m.outcome ≠ .unfinished) : m.isOver = true := by
  unfold Machine.outcome at ended
  unfold Machine.isOver
  split at ended <;> simp_all

theorem outcome_of_fits {G : Occurrence → Prop} {shape : List Origin} {m : Machine}
    (fits : m.Fits G shape) :
    m.outcome = .done ∨ (∃ f, m.outcome = .failed f) ∨ m.outcome = .unfinished := by
  by_cases ended : m.outcome = .unfinished
  · exact .inr (.inr ended)
  · rcases (over_of_fits fits (over_of_outcome ended)).2 with done | ⟨f, failed, _⟩
    · exact .inl done
    · exact .inr (.inl ⟨f, failed⟩)

theorem outcome_of_run {programs : List (List Stmt)} {held : List Value} {s t : Session}
    {limits : Limits} {source : String} {r : Run} (sound : s.Sound programs held)
    (ran : s.run limits source = (t, .ok r)) :
    r.outcome = .done ∨ (∃ f, r.outcome = .failed f ∧ f.Admissible) ∨ r.outcome = .unfinished := by
  obtain ⟨program, ds, accepts⟩ := accepts_of_ran ran
  cases (run_of_accepts accepts limits).symm.trans ran
  obtain ⟨shape, fits, _⟩ := accepts.fits sound limits.depth limits.steps
  by_cases cut : (s.shown limits program ds).outcome = .unfinished
  · exact .inr (.inr cut)
  · exact (over_of_fits fits (over_of_outcome cut)).2.imp_right .inl

theorem sound_of_reachable {programs : List (List Stmt)} {held : List Value} {s : Session}
    (reached : Reachable programs held s) : s.Sound programs held := by
  induction reached with
  | empty file =>
    have none_there : ∀ o, ¬ Among [] o := fun o here => nomatch here
    refine ⟨rfl, ⟨[.global], Store.fits_initial _, fun _ absent => nomatch absent⟩, ?_, ?_, ?_, ?_⟩
    · exact fun id name levels here => absurd here (none_there _)
    · exact fun _ _ => rfl
    · exact fun o here => absurd here (none_there _)
    · exact fun o _ _ here => absurd here (none_there _)
  | keep reached holds sound =>
    obtain ⟨shape, store, held_fit⟩ := sound.store
    refine { sound with store := ⟨shape, store, fun b member => ?_⟩ }
    rcases List.mem_cons.mp member with rfl | earlier
    · exact store.holds holds
    · exact held_fit b earlier
  | @native programs held s reached name arity function sound =>
    obtain ⟨shape, store, held_fit⟩ := sound.store
    have hosted : (s.store.addHost name arity function).1.Fits (Among programs) shape :=
      store.congr rfl rfl rfl
    have grown := Store.extends_define (Among programs) shape (s.store.addHost name arity function).1
      Store.globals name (s.defineNative name arity function).2
    refine { sound with store := ⟨shape, hosted.defineGlobal name True.intro, fun b member => ?_⟩ }
    rcases List.mem_cons.mp member with rfl | earlier
    · exact True.intro
    · exact (held_fit b earlier).later grown
  | @setGlobal programs held s a reached name known sound =>
    obtain ⟨shape, store, held_fit⟩ := sound.store
    have grown := Store.extends_define (Among programs) shape s.store Store.globals name a
    have value : a.Fits (s.store.world (Among programs) shape) :=
      of_known held_fit (fits_toValue _) known
    exact { sound with
      store := ⟨shape, store.defineGlobal name value,
        fun b member => (held_fit b member).later grown⟩ }
  | @entrust programs held s a reached known sound =>
    obtain ⟨shape, store, held_fit⟩ := sound.store
    refine { sound with store := ⟨shape, store.keep fun b member => ?_, held_fit⟩ }
    cases List.mem_singleton.mp member
    exact of_known held_fit (fits_toValue _) known
  | @rejected programs held s t limits source rejection reached result sound =>
    have below := nextId_of_read s source
    rw [eq_of_rejected result, read_eq]
    exact { sound with
      fresh := fun id free => sound.fresh id (Nat.le_trans below free)
      placed := fun o here =>
        (sound.placed o here).mono (fun _ older => Nat.lt_of_lt_of_le older below) fun _ => id }
  | @ran programs held s source program ds reached limits accepted ended sound =>
    obtain ⟨shape, fits, held_fit⟩ := accepted.fits sound limits.depth limits.steps
    have store := fits.store
    exact ⟨(over_of_fits fits (over_of_outcome ended)).1, ⟨shape, store, held_fit⟩,
      accepted.resolves sound, accepted.fresh sound, accepted.placed_all sound,
      accepted.unique sound⟩

end Session

end LoxMachine
