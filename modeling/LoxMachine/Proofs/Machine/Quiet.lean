import LoxMachine.Machine.Step

namespace LoxMachine

def Control.begins : Control → Bool
  | evaluate _ | execute _ => true
  | value _ | done | returning _ | failing _ => false

namespace Machine

/-- Something was handed on: nothing else than the control and what is stored is different. -/
structure Quiet (m n : Machine) : Prop where
  control : n.control.begins = false
  frames : n.frames = m.frames
  scope : n.scope = m.scope
  depth : n.depth = m.depth
  host : n.store.host = m.store.host

theorem quiet_giveResult (m : Machine) (result : Except Failure Value) :
    m.Quiet (m.giveResult result) := by
  cases result <;> exact ⟨rfl, rfl, rfl, rfl, rfl⟩

theorem quiet_giveBound (m : Machine) (result : Except ScopeError Value) :
    m.Quiet (m.giveBound result) := by
  cases result <;> exact ⟨rfl, rfl, rfl, rfl, rfl⟩

theorem quiet_lookUp (c : Setting) (m : Machine) (id : NodeId) (name : Token) :
    m.Quiet (lookUp c m id name) := by
  unfold lookUp
  split
  · exact quiet_giveBound m _
  · split <;> exact ⟨rfl, rfl, rfl, rfl, rfl⟩

theorem quiet_assignTo (c : Setting) (m : Machine) (id : NodeId) (name : Token) (a : Value) :
    m.Quiet (assignTo c m id name a) := by
  unfold assignTo
  repeat' split
  all_goals exact ⟨rfl, rfl, rfl, rfl, rfl⟩

theorem quiet_lookUpSuper (c : Setting) (m : Machine) (id : NodeId) (method : Token) :
    m.Quiet (lookUpSuper c m id method) := by
  unfold lookUpSuper
  repeat' split
  all_goals exact ⟨rfl, rfl, rfl, rfl, rfl⟩

theorem quiet_readProperty (m : Machine) (name : Token) (a : Value) :
    m.Quiet (m.readProperty name a) := by
  unfold readProperty
  repeat' split
  all_goals exact ⟨rfl, rfl, rfl, rfl, rfl⟩

theorem quiet_defineClass (m : Machine) (name : Token) (superclass : Option Class)
    (methods : List FunctionDecl) : m.Quiet (m.defineClass name superclass methods) := by
  cases superclass <;> exact ⟨rfl, rfl, rfl, rfl, rfl⟩

theorem quiet_leaveCall (m : Machine) (scope : ScopeId) (initialized : Option ScopeId) (a : Value) :
    Quiet { m with scope, depth := m.depth - 1 } (m.leaveCall scope initialized a) := by
  cases initialized with
  | none => exact ⟨rfl, rfl, rfl, rfl, rfl⟩
  | some own => exact quiet_giveBound { m with scope, depth := m.depth - 1 } _

end Machine

end LoxMachine
