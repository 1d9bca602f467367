import LoxMachine.Machine.Outcome
import LoxMachine.Machine.Step
import LoxMachine.Grammar.Declaration

namespace LoxMachine

structure Limits where
  steps : Nat
  depth : Nat

/-- More steps than any run can take, and room for ten thousand calls within each other. -/
def Limits.standard : Limits := ⟨10000000000000000, 10000⟩

structure Session where
  file : String
  store : Store
  scope : ScopeId
  /-- The distances of everything that was run so far. -/
  distances : Distances
  nextId : NodeId

namespace Session

def empty (file : String) : Session :=
  { file, store := .initial, scope := Store.globals, distances := [], nextId := 1 }

def setGlobal (s : Session) (name : String) (v : Value) : Session :=
  { s with store := s.store.define Store.globals name v }

def getGlobal (s : Session) (name : String) : Except ScopeError Value :=
  s.store.scopes.get Store.globals name

def globals (s : Session) : Table Value := (s.store.scopes.bindings Store.globals).sorted

def defineNative (s : Session) (name : String) (arity : Nat) (function : HostFunction) :
    Session × Value :=
  let (store, native) := s.store.addHost name arity function
  let value := Value.native native
  (setGlobal { s with store } name value, value)

/-- Lets the functions of the host answer with a value. -/
def entrust (s : Session) (v : Value) : Session := { s with store := s.store.keep [v] }

/-- A clock that begins with a number of microseconds and moves on by a millisecond whenever it is
read; it answers seconds. -/
def clockFrom (start : Nat) : HostFunction :=
  fun calls _ => .literal (.number ⟨false, start + 1000 * calls, -6⟩)

/-- A session with the global names that every program finds. -/
def start (file : String) (microseconds : Nat) : Session :=
  ((empty file).defineNative "clock" 0 (clockFrom microseconds)).1

def machine (s : Session) (control : Control) (frames : List Frame) : Machine :=
  { control, frames, scope := s.scope, depth := 0, store := s.store, printed := [], classes := [] }

def settle (s : Session) (m : Machine) : Session × Run :=
  ({ s with store := m.store, scope := m.scope },
    { outcome := m.outcome, printed := m.printed.reverse, classes := m.classes.reverse })

/-- Runs a program with the given distances, which are kept for later runs. -/
def interpret (s : Session) (limits : Limits) (program : List Stmt) (distances : Distances) :
    Session × Run :=
  let s := { s with distances := distances ++ s.distances }
  let m := s.machine .done [.sequence program]
  s.settle (Machine.run ⟨s.distances, limits.depth⟩ limits.steps m)

def evaluate (s : Session) (limits : Limits) (e : Expr) : Session × Run :=
  s.settle (Machine.run ⟨s.distances, limits.depth⟩ limits.steps (s.machine (.evaluate e) []))

/-- Reads a program, whose nodes get numbers that no earlier program has. -/
def read (s : Session) (source : String) : Session × Except Rejection (List Stmt) :=
  match tokenize source with
  | .error faults => (s, .error (.scan faults))
  | .ok tokens =>
    let (result, stop) := parse s.nextId tokens
    ({ s with nextId := stop.nextId }, result.mapError .grammar)

/-- Reads and runs a program, unless it is rejected. -/
def run (s : Session) (limits : Limits) (source : String) : Session × Except Rejection Run :=
  match s.read source with
  | (s, .error rejection) => (s, .error rejection)
  | (s, .ok program) =>
    match distancesOf program with
    | .error error => (s, .error (.static error))
    | .ok distances =>
      let (s, run) := s.interpret limits program distances
      (s, .ok run)

end Session

end LoxMachine
