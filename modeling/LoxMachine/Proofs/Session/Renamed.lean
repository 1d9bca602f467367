import LoxMachine.Proofs.Grammar.Shifted
import LoxMachine.Proofs.Machine.Renamed
import LoxMachine.Proofs.Recode.Shown
import LoxMachine.Proofs.Session.Reachable

namespace LoxMachine

def Run.rename (f : NodeId → NodeId) (r : Run) : Run := { r with outcome := r.outcome.rename f }

theorem Machine.discreet_run (c : Setting) (n : Nat) {m : Machine} (discreet : m.store.Discreet) :
    (run c n m).store.Discreet := (changes_run c m n).discreet discreet

namespace Session

/-- The second session holds what the first one holds, with other numbers. -/
structure Renamed (f : NodeId → NodeId) (s t : Session) : Prop where
  file : t.file = s.file
  store : t.store = s.store.rename f
  scope : t.scope = s.scope
  distances : t.distances = s.distances.rename f

theorem renamed_empty (f : NodeId → NodeId) (file : String) :
    (empty file).Renamed f (empty file) where
  file := rfl
  store := by
    simp only [empty, Store.initial, Store.rename, Forest.rename, List.map_toArray, List.map_cons,
      List.map_nil, Table.rename, Table.recode]
  scope := rfl
  distances := rfl

section Operations

variable {f : NodeId → NodeId} {s t : Session} (renamed : s.Renamed f t)

include renamed

theorem Renamed.setGlobal (name : String) (a : Value) :
    (s.setGlobal name a).Renamed f (t.setGlobal name (a.rename f)) := by
  refine ⟨renamed.file, ?_, renamed.scope, renamed.distances⟩
  change t.store.define Store.globals name (a.rename f) = _
  rw [renamed.store]
  exact s.store.define_rename f Store.globals name a

theorem Renamed.defineNative (name : String) (arity : Nat) (function : HostFunction) :
    (s.defineNative name arity function).1.Renamed f (t.defineNative name arity function).1 ∧
      (t.defineNative name arity function).2 = (s.defineNative name arity function).2.rename f := by
  have hosted : t.store.addHost name arity function =
      ((s.store.addHost name arity function).1.rename f,
        (s.store.addHost name arity function).2) := by
    rw [renamed.store]
    exact s.store.addHost_rename f name arity function
  have native : (t.store.addHost name arity function).2 =
      (s.store.addHost name arity function).2 := by
    rw [hosted]
  have added : ({ s with store := (s.store.addHost name arity function).1 } : Session).Renamed f
      { t with store := (t.store.addHost name arity function).1 } :=
    ⟨renamed.file, by rw [hosted], renamed.scope, renamed.distances⟩
  constructor
  · change Renamed f _ (Session.setGlobal
      { t with store := (t.store.addHost name arity function).1 } name
      (.native (t.store.addHost name arity function).2))
    rw [native]
    exact added.setGlobal name (.native (s.store.addHost name arity function).2)
  · exact congrArg Value.native native

theorem Renamed.entrust (a : Value) : (s.entrust a).Renamed f (t.entrust (a.rename f)) := by
  refine ⟨renamed.file, ?_, renamed.scope, renamed.distances⟩
  change t.store.keep [a.rename f] = _
  rw [renamed.store]
  rfl

theorem Renamed.getGlobal (name : String) :
    t.getGlobal name = (s.getGlobal name).map (·.rename f) := by
  unfold Session.getGlobal
  rw [renamed.store]
  exact s.store.scopes.get_rename f Store.globals name

theorem Renamed.globals : t.globals = s.globals.rename f := by
  have bindings : t.store.scopes.bindings Store.globals =
      (s.store.scopes.bindings Store.globals).rename f := by
    rw [renamed.store]
    exact s.store.scopes.bindings_rename f Store.globals
  unfold Session.globals
  rw [bindings]
  exact Table.sorted_recode _ _

/-- A program runs alike with other numbers that differ. -/
theorem Renamed.interpret (apart : ∀ i j, f i = f j → i = j) (discreet : s.store.Discreet)
    (limits : Limits) (program : List Stmt) (ds : Distances) :
    (s.interpret limits program ds).1.Renamed f
        (t.interpret limits (stmtsRename f program) (ds.rename f)).1 ∧
      (t.interpret limits (stmtsRename f program) (ds.rename f)).2 =
        (s.interpret limits program ds).2.rename f := by
  have distances : ds.rename f ++ t.distances = (ds ++ s.distances).rename f := by
    rw [renamed.distances, Distances.rename_append]
  have settings : Setting.Renamed f ⟨ds ++ s.distances, limits.depth⟩
      ⟨ds.rename f ++ t.distances, limits.depth⟩ := by
    constructor
    · intro id
      rw [distances]
      exact Distances.lookup_rename apart _ id
    · rfl
  have begun : t.machine .done [.sequence (stmtsRename f program)] =
      (s.machine .done [.sequence program]).rename f := by
    unfold machine
    rw [renamed.store, renamed.scope]
    rfl
  have last := Machine.run_rename (m := s.machine .done [.sequence program]) settings discreet
    limits.steps
  rw [← begun] at last
  constructor
  · have store := congrArg Machine.store last
    have scope := congrArg Machine.scope last
    exact ⟨renamed.file, store, scope, distances⟩
  · have outcome := congrArg Machine.outcome last
    rw [Machine.outcome_rename] at outcome
    have printed := congrArg (fun m : Machine => m.printed.reverse) last
    have classes := congrArg (fun m : Machine => m.classes.reverse) last
    unfold Session.interpret settle
    exact (Run.mk.injEq ..).mpr ⟨outcome, printed, classes⟩

end Operations

section Reading

variable {s t : Session} {k : Nat}

theorem read_shift (later : t.nextId = s.nextId + k) (source : String) :
    (t.read source).2 = (s.read source).2.map (stmtsRename (· + k)) ∧
      (t.read source).1.nextId = (s.read source).1.nextId + k := by
  unfold read
  cases tokenize source with
  | error faults => exact ⟨rfl, later⟩
  | ok tokens =>
    simp only
    rw [later, parse_shift]
    cases parse s.nextId tokens with
    | mk result stop => cases result <;> exact ⟨rfl, rfl⟩

theorem run_eq (s : Session) (limits : Limits) (source : String) :
    s.run limits source =
      match (s.read source).2 with
      | .error rejection => ((s.read source).1, .error rejection)
      | .ok program =>
        match distancesOf program with
        | .error error => ((s.read source).1, .error (.static error))
        | .ok ds =>
          let (t, run) := (s.read source).1.interpret limits program ds
          (t, .ok run) := by
  unfold run
  cases s.read source with
  | mk t result => cases result <;> rfl

end Reading

end Session

end LoxMachine
