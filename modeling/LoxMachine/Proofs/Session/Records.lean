import LoxMachine.Proofs.Session.Reachable
import LoxMachine.Proofs.Machine.Receiver

namespace LoxMachine

open Static

def functionsOf (programs : List (List Stmt)) : List (FunctionDecl × Stmt) :=
  programs.flatMap stmtsFunctions

theorem Past.mem_functionsOf {w : Past} {s : Stmt} {decl : FunctionDecl} (written : w.Written s)
    (declares : decl ∈ s.callables) : (decl, s) ∈ functionsOf w.programs := by
  obtain ⟨program, member, around, stands⟩ := written
  exact List.mem_flatMap.mpr ⟨program, member, mem_functions stands declares⟩

theorem Store.Recorded.holds {w : Past} {s : Store} {a : Value} (recorded : s.Recorded w)
    (holds : s.Holds a) : a.Recorded w := by
  rcases holds with ⟨e, name, found⟩ | ⟨o, name, found⟩ | given
  · exact recorded.get found
  · exact recorded.field found
  · exact recorded.kept a given

namespace Session

def ledgerAt (s : Session) (depth : Nat) (program : List Stmt) (ds : Distances) (n : Nat)
    (ledger : List Opening) : List Opening :=
  ledger ++ Machine.openingsOf (s.setting depth ds) n (s.machine .done [.sequence program])

/-- Sessions that a host can bring about, with the programs that were run, the values that the host
keeps, and the ledger of all runs. -/
inductive Records : List (List Stmt) → List Value → Session → List Opening → Prop
  | empty (file : String) : Records [] [] (Session.empty file) [.global]
  | keep {programs held s ledger a} (records : Records programs held s ledger)
      (holds : s.store.Holds a) : Records programs (a :: held) s ledger
  | native {programs held s ledger} (records : Records programs held s ledger) (name : String)
      (arity : Nat) (function : HostFunction) :
      Records programs ((s.defineNative name arity function).2 :: held)
        (s.defineNative name arity function).1 ledger
  | setGlobal {programs held s ledger a} (records : Records programs held s ledger) (name : String)
      (known : a ∈ held ∨ ∃ l : Literal, a = l.toValue) :
      Records programs held (s.setGlobal name a) ledger
  | entrust {programs held s ledger a} (records : Records programs held s ledger)
      (known : a ∈ held ∨ ∃ l : Literal, a = l.toValue) :
      Records programs held (s.entrust a) ledger
  | rejected {programs held s ledger t limits source rejection}
      (records : Records programs held s ledger)
      (result : s.run limits source = (t, .error rejection)) : Records programs held t ledger
  | ran {programs held s ledger source program ds} (records : Records programs held s ledger)
      (limits : Limits) (accepted : s.Accepts source program ds)
      (ended : (s.shown limits program ds).outcome ≠ .unfinished) :
      Records (program :: programs) held (s.after limits source program ds)
        (s.ledgerAt limits.depth program ds limits.steps ledger)

variable {programs : List (List Stmt)} {held : List Value} {s : Session} {ledger : List Opening}

theorem reachable_of_records (records : Records programs held s ledger) :
    Reachable programs held s := by
  induction records with
  | empty file => exact .empty file
  | keep _ holds ih => exact .keep ih holds
  | native _ name arity function ih => exact .native ih name arity function
  | setGlobal _ name known ih => exact .setGlobal ih name known
  | entrust _ known ih => exact .entrust ih known
  | rejected _ result ih => exact .rejected ih result
  | ran _ limits accepted ended ih => exact .ran ih limits accepted ended

theorem exists_records (reached : Reachable programs held s) :
    ∃ ledger, Records programs held s ledger := by
  induction reached with
  | empty file => exact ⟨_, .empty file⟩
  | keep _ holds ih =>
    obtain ⟨ledger, records⟩ := ih
    exact ⟨ledger, .keep records holds⟩
  | native _ name arity function ih =>
    obtain ⟨ledger, records⟩ := ih
    exact ⟨ledger, .native records name arity function⟩
  | setGlobal _ name known ih =>
    obtain ⟨ledger, records⟩ := ih
    exact ⟨ledger, .setGlobal records name known⟩
  | entrust _ known ih =>
    obtain ⟨ledger, records⟩ := ih
    exact ⟨ledger, .entrust records known⟩
  | rejected _ result ih =>
    obtain ⟨ledger, records⟩ := ih
    exact ⟨ledger, .rejected records result⟩
  | ran _ limits accepted ended ih =>
    obtain ⟨ledger, records⟩ := ih
    exact ⟨_, .ran records limits accepted ended⟩

structure Numbers (programs : List (List Stmt)) (next : NodeId) : Prop where
  accepted : ∀ program ∈ programs, StmtsFormed program ∧ ∃ ds, distancesOf program = .ok ds
  below : ∀ entry ∈ functionsOf programs, entry.1.id < next
  unique : ∀ one ∈ functionsOf programs, ∀ other ∈ functionsOf programs,
    one.1.id = other.1.id → one = other

structure Accounts (w : Past) (held : List Value) (s : Store) : Prop where
  fits : s.Fits (Among w.programs) w.shape
  recorded : s.Recorded w
  held_fit : ∀ a ∈ held, a.Fits (s.world (Among w.programs) w.shape)
  held_recorded : ∀ a ∈ held, a.Recorded w

theorem Accounts.define {w : Past} {t : Store} (accounts : Accounts w held t) (name : String)
    {a : Value} (fits : a.Fits (t.world (Among w.programs) w.shape)) (recorded : a.Recorded w) :
    Accounts w held (t.define Store.globals name a) := by
  have grown := Store.extends_define (Among w.programs) w.shape t Store.globals name a
  exact ⟨accounts.fits.defineGlobal name fits,
    accounts.recorded.define (.inl accounts.recorded.globals) recorded,
    fun b member => (accounts.held_fit b member).later grown, accounts.held_recorded⟩

theorem Accounts.keep {w : Past} {t : Store} (accounts : Accounts w held t) {a : Value}
    (fits : a.Fits (t.world (Among w.programs) w.shape)) (recorded : a.Recorded w) :
    Accounts w (a :: held) t :=
  ⟨accounts.fits, accounts.recorded, List.forall_mem_cons.mpr ⟨fits, accounts.held_fit⟩,
    List.forall_mem_cons.mpr ⟨recorded, accounts.held_recorded⟩⟩

theorem Accounts.known {w : Past} {t : Store} (accounts : Accounts w held t) {a : Value}
    (known : a ∈ held ∨ ∃ l : Literal, a = l.toValue) :
    a.Fits (t.world (Among w.programs) w.shape) ∧ a.Recorded w :=
  ⟨of_known accounts.held_fit (fits_toValue _) known,
    of_known accounts.held_recorded (recorded_toValue _) known⟩

section Accepted

variable {source : String} {program : List Stmt} {ds : Distances}

/-- The functions of an accepted program have new numbers. -/
theorem Accepts.numbers (accepted : s.Accepts source program ds)
    (numbers : Numbers programs s.nextId) :
    Numbers (program :: programs) (s.read source).1.nextId := by
  have numbered := accepted.built.1
  have fresh := numbered.part fun i => count_functions_stmts i program
  have between : ∀ entry ∈ stmtsFunctions program,
      s.nextId ≤ entry.1.id ∧ entry.1.id < (s.read source).1.nextId :=
    fun entry here => fresh.2.2 _ (List.mem_map_of_mem here)
  have split : ∀ entry ∈ functionsOf (program :: programs),
      entry ∈ stmtsFunctions program ∨ entry ∈ functionsOf programs := by
    intro entry member
    rwa [functionsOf, List.flatMap_cons, List.mem_append] at member
  refine ⟨List.forall_mem_cons.mpr ⟨⟨accepted.built.2, ds, accepted.distances⟩, numbers.accepted⟩,
    fun entry member => ?_, fun one here other there same => ?_⟩
  · rcases split entry member with new | old
    · exact (between entry new).2
    · exact Nat.lt_of_lt_of_le (numbers.below entry old) numbered.1
  · rcases split one here with new | old <;> rcases split other there with new' | old'
    · exact function_unique numbered new new' same
    · exact absurd (between one new).1 (Nat.not_le.mpr (same ▸ numbers.below other old'))
    · exact absurd (between other new').1 (Nat.not_le.mpr (same ▸ numbers.below one old))
    · exact numbers.unique one old other old' same

/-- All that a run of an accepted program is at is accounted for. -/
theorem Accepts.recorded (accepted : s.Accepts source program ds) (sound : s.Sound programs held)
    (accounts : Accounts ⟨programs, ledger⟩ held s.store) (depth n : Nat) :
    let w : Past := ⟨program :: programs, s.ledgerAt depth program ds n ledger⟩
    (s.point depth program ds n).Fits (Among (program :: programs)) w.shape ∧
      (s.point depth program ds n).Recorded w ∧
      Accounts w held (s.point depth program ds n).store := by
  intro w
  let before : Past := ⟨program :: programs, ledger⟩
  have more : programs ⊆ program :: programs := List.subset_cons_self program programs
  have known : ∀ o, Among programs o → Among (program :: programs) o :=
    fun o earlier => among_cons.mpr (.inr earlier)
  have store : s.store.Recorded before := accounts.recorded.more more
  have start : (s.machine .done [.sequence program]).Recorded before := by
    refine ⟨store, ?_, List.forall_mem_singleton.mpr fun st here => ?_, True.intro⟩
    · change before.IsBody s.scope
      rw [sound.top]
      exact store.globals
    · exact ⟨program, List.mem_cons_self, [], .top here⟩
  obtain ⟨fits, recorded⟩ := Machine.recorded_run (w := before) (c := s.setting depth ds)
    (accepted.resolves sound) n (accepted.start_fits sound accounts.fits) start
  have grown : (s.store.world (Among programs) before.shape).Extends
      ((s.point depth program ds n).world (Among (program :: programs)) w.shape) := by
    refine ⟨known, ?_,
      Machine.grows_run (s.setting depth ds) (s.machine .done [.sequence program]) n⟩
    exact (Past.shape_add before _) ▸ List.prefix_append _ _
  exact ⟨fits, recorded, fits.store, recorded.store,
    fun a member => (accounts.held_fit a member).later grown,
    fun a member => (accounts.held_recorded a member).later ⟨more, List.prefix_append _ _⟩⟩

end Accepted

/-- What a session holds is accounted for. -/
theorem accounts_of_records (records : Records programs held s ledger) :
    Accounts ⟨programs, ledger⟩ held s.store ∧ Numbers programs s.nextId := by
  induction records with
  | empty file =>
    refine ⟨⟨Store.fits_initial _, Store.recorded_initial [], ?_, ?_⟩, ⟨?_, ?_, ?_⟩⟩
    all_goals exact fun _ absent => nomatch absent
  | keep _ holds ih =>
    exact ⟨ih.1.keep (ih.1.fits.holds holds) (ih.1.recorded.holds holds), ih.2⟩
  | @native programs held s ledger _ name arity function ih =>
    have hosted : Accounts ⟨programs, ledger⟩ held (s.store.addHost name arity function).1 :=
      ⟨ih.1.fits.congr rfl rfl rfl, ih.1.recorded.congr rfl rfl rfl, ih.1.held_fit,
        ih.1.held_recorded⟩
    have bound := hosted.define (a := (s.defineNative name arity function).2) name True.intro
      True.intro
    exact ⟨bound.keep True.intro True.intro, ih.2⟩
  | @setGlobal programs held s ledger a _ name known ih =>
    obtain ⟨fits, recorded⟩ := ih.1.known known
    exact ⟨ih.1.define name fits recorded, ih.2⟩
  | @entrust programs held s ledger a _ known ih =>
    obtain ⟨fits, recorded⟩ := ih.1.known known
    refine ⟨⟨ih.1.fits.keep ?_, ih.1.recorded.keep ?_, ih.1.held_fit, ih.1.held_recorded⟩, ih.2⟩
    · exact List.forall_mem_singleton.mpr fits
    · exact List.forall_mem_singleton.mpr recorded
  | @rejected programs held s ledger t limits source rejection _ result ih =>
    have below := nextId_of_read s source
    rw [eq_of_rejected result, read_eq]
    exact ⟨ih.1, ih.2.accepted,
      fun entry member => Nat.lt_of_lt_of_le (ih.2.below entry member) below, ih.2.unique⟩
  | @ran programs held s ledger source program ds records limits accepted ended ih =>
    have sound := sound_of_reachable (reachable_of_records records)
    exact ⟨(accepted.recorded sound ih.1 limits.depth limits.steps).2.2, accepted.numbers ih.2⟩

end Session

end LoxMachine
