import LoxMachine.Machine.Session
import LoxMachine.Proofs.Search.Forest

namespace LoxMachine

def Forest.find? {α : Type} (f : Forest α) (e : ScopeId) (name : String) : Option α :=
  (f.search e name).bind fun target => (f.bindings target).get? name

theorem Forest.find?_eq_some {α : Type} {f : Forest α} {e target : ScopeId} {name : String} {a : α}
    (reached : f.search e name = some target) (bound : f.get target name = .ok a) :
    f.find? e name = some a := by
  unfold get at bound
  split at bound
  · rename_i b here
    cases bound
    rw [find?, reached, Option.bind_some, here]
  · cases bound

namespace Machine

/-- The value of a name. -/
def seek (m : Machine) (name : Token) : Machine :=
  match m.store.scopes.find? m.scope name.lexeme with
  | some v => m.give v
  | none => m.complain name (.undefinedVariable name.lexeme)

def seekAssign (m : Machine) (name : Token) (v : Value) : Machine :=
  match m.store.scopes.search m.scope name.lexeme with
  | some e => { m with control := .value v, store := m.store.define e name.lexeme v }
  | none => m.complain name (.undefinedVariable name.lexeme)

/-- A method of the class that `super` names, bound to the object that `this` names. -/
def seekSuper (m : Machine) (keyword method : Token) : Machine :=
  match m.store.scopes.find? m.scope "super", m.store.scopes.find? m.scope "this" with
  | some (.cls base), some receiver =>
    match base.findMethod method.lexeme with
    | some found => m.giveBoundMethod found receiver
    | none => m.complain method (.undefinedProperty method.lexeme)
  | some _, some _ => m.fail .superNotClass
  | _, _ => m.complain keyword (.undefinedVariable keyword.lexeme)

/-- The next state; only so many calls may wait for each other. -/
def seekStep (depthLimit : Nat) (m : Machine) : Machine :=
  match m.control, m.frames with
  | .evaluate (.read use), _ => m.seek use.name
  | .evaluate (.this _ keyword), _ => m.seek keyword
  | .evaluate (.super _ keyword method), _ => m.seekSuper keyword method
  | .value v, .assign _ name :: frames => { m with frames }.seekAssign name v
  | _, _ => step ⟨[], depthLimit⟩ m

def seekRun (depthLimit : Nat) : Nat → Machine → Machine
  | 0, m => m
  | n + 1, m => if m.isOver then m else seekRun depthLimit n (seekStep depthLimit m)

end Machine

/-- Runs a program without its distances. -/
def Session.seek (s : Session) (limits : Limits) (program : List Stmt) : Session × Run :=
  s.settle (Machine.seekRun limits.depth limits.steps (s.machine .done [.sequence program]))

end LoxMachine
