import LoxMachine.Proofs.Machine.Opens

namespace LoxMachine

open Static

/-- What a run did when it opened a scope. -/
inductive Opening where
  | global
  | block (id : NodeId) (body : List Stmt)
  | call (f : Closure)
  | receiver (method : Method) (receiver : Value) (bound : Closure)
  /-- A class with the name and the methods was made, and the value of its superclass was the class
  at hand. -/
  | heritage (name : Token) (methods : List FunctionDecl) (base : Class)

namespace Opening

/-- What opens the scope in the text. -/
def origin : Opening → Origin
  | global => .global
  | block id body => .block id (namesOf body)
  | call f => f.decl.origin
  | receiver _ _ _ => .receiver
  | heritage _ _ _ => .heritage

def IsBody : Opening → Prop
  | global | block _ _ | call _ => True
  | receiver _ _ _ | heritage _ _ _ => False

end Opening

namespace Machine

def enterOpenings (c : Setting) (m : Machine) (f : Closure) : List Opening :=
  if c.depthLimit ≤ m.depth then [] else [.call f]

/-- A call of a class binds the initializer to the new object and calls it. -/
def instantiateOpenings (c : Setting) (m : Machine) (cls : Class) : List Opening :=
  match cls.initializer with
  | none => []
  | some method =>
    let (store, object) := m.store.instantiate cls
    let f := (store.bind method (.object object)).2
    .receiver method (.object object) f :: enterOpenings c m f

/-- What calling a value opens. -/
def callOpenings (c : Setting) (m : Machine) (calleeValue : Value) (arguments : List Value) :
    List Opening :=
  match calleeValue.callable? with
  | none => []
  | some target =>
    if arguments.length ≠ target.arity then []
    else match target with
      | .closure f => enterOpenings c m f
      | .native _ => []
      | .cls cls => instantiateOpenings c m cls

def supplyOpenings (c : Setting) (m : Machine) (calleeValue : Value) (given : List Value) :
    List Expr → List Opening
  | [] => callOpenings c m calleeValue given.reverse
  | _ :: _ => []

/-- What reading a property opens: a scope for the object, if it is a method. -/
def propertyOpenings (m : Machine) (name : Token) : Value → List Opening
  | .object o =>
    match (m.store.fieldsOf o).get? name.lexeme with
    | some _ => []
    | none =>
      match o.cls.findMethod name.lexeme with
      | some method => [.receiver method (.object o) (m.store.bind method (.object o)).2]
      | none => []
  | _ => []

/-- What reading a method of the superclass opens. -/
def superOpenings (c : Setting) (m : Machine) (id : NodeId) (method : Token) : List Opening :=
  match c.distances.lookup id with
  | none => []
  | some d =>
    match m.store.scopes.getAt m.scope d "super" with
    | .error _ => []
    | .ok base =>
      match m.store.scopes.getAt m.scope (d - 1) "this" with
      | .error _ => []
      | .ok receiver =>
        match base with
        | .cls base =>
          match base.findMethod method.lexeme with
          | some found => [.receiver found receiver (m.store.bind found receiver).2]
          | none => []
        | _ => []

def evaluateOpenings (c : Setting) (m : Machine) : Expr → List Opening
  | .super id _ method => superOpenings c m id method
  | _ => []

def executeOpenings : Stmt → List Opening
  | .block id body => [.block id body]
  | _ => []

/-- What handing a value to a frame opens. -/
def resumeOpenings (c : Setting) (m : Machine) (v : Value) : Frame → List Opening
  | .callee _ _ arguments => supplyOpenings c m v [] arguments
  | .argument calleeValue _ _ given rest => supplyOpenings c m calleeValue (v :: given) rest
  | .property name => propertyOpenings m name v
  | .heritage _ name methods =>
    match v with
    | .cls base => [.heritage name methods base]
    | _ => []
  | _ => []

/-- What the next step does when it opens scopes. -/
def openings (c : Setting) (m : Machine) : List Opening :=
  match m.control, m.frames with
  | .evaluate e, _ => evaluateOpenings c m e
  | .execute s, _ => executeOpenings s
  | .value v, frame :: frames => resumeOpenings c { m with frames } v frame
  | _, _ => []

/-- What a run does when it opens scopes, in so many steps. -/
def openingsOf (c : Setting) : Nat → Machine → List Opening
  | 0, _ => []
  | n + 1, m => if m.isOver then [] else openings c m ++ openingsOf c n (step c m)

variable (c : Setting) (m : Machine)

theorem origin_enterOpenings (f : Closure) :
    (enterOpenings c m f).map Opening.origin = enterOpens c m f.decl := by
  unfold enterOpenings enterOpens
  split <;> rfl

theorem origin_callOpenings (calleeValue : Value) (arguments : List Value) :
    (callOpenings c m calleeValue arguments).map Opening.origin =
      callOpens c m calleeValue arguments := by
  unfold callOpenings callOpens
  cases calleeValue.callable? with
  | none => rfl
  | some target =>
    dsimp only
    split
    · rfl
    · cases target with
      | closure f => exact origin_enterOpenings c m f
      | native f => rfl
      | cls cls =>
        dsimp only [instantiateOpenings]
        cases cls.initializer with
        | none => rfl
        | some method => exact congrArg (Origin.receiver :: ·) (origin_enterOpenings c m _)

theorem origin_supplyOpenings (calleeValue : Value) (given : List Value) (arguments : List Expr) :
    (supplyOpenings c m calleeValue given arguments).map Opening.origin =
      supplyOpens c m calleeValue given arguments := by
  cases arguments with
  | nil => exact origin_callOpenings c m calleeValue given.reverse
  | cons e rest => rfl

theorem origin_propertyOpenings (name : Token) (a : Value) :
    (propertyOpenings m name a).map Opening.origin = propertyOpens m name a := by
  cases a with
  | object o =>
    simp only [propertyOpenings, propertyOpens]
    cases (m.store.fieldsOf o).get? name.lexeme with
    | some v => rfl
    | none => cases o.cls.findMethod name.lexeme <;> rfl
  | _ => rfl

theorem origin_superOpenings (id : NodeId) (method : Token) :
    (superOpenings c m id method).map Opening.origin = superOpens c m id method := by
  unfold superOpenings superOpens
  cases c.distances.lookup id with
  | none => rfl
  | some d =>
    dsimp only
    cases m.store.scopes.getAt m.scope d "super" with
    | error e => rfl
    | ok base =>
      dsimp only
      cases m.store.scopes.getAt m.scope (d - 1) "this" with
      | error e => rfl
      | ok receiver =>
        cases base with
        | cls base =>
          dsimp only
          cases base.findMethod method.lexeme <;> rfl
        | _ => rfl

theorem origin_resumeOpenings (a : Value) (frame : Frame) :
    (resumeOpenings c m a frame).map Opening.origin = resumeOpens c m a frame := by
  cases frame with
  | callee callee paren arguments => exact origin_supplyOpenings c m a [] arguments
  | argument calleeValue callee paren given rest =>
    exact origin_supplyOpenings c m calleeValue (a :: given) rest
  | property name => exact origin_propertyOpenings m name a
  | heritage superclass name methods => cases a <;> rfl
  | _ => rfl

theorem origin_openings : (openings c m).map Opening.origin = opens c m := by
  obtain ⟨control, frames, scope, depth, store, printed, classes⟩ := m
  cases control with
  | evaluate e =>
    cases e with
    | super id keyword method => exact origin_superOpenings c _ id method
    | _ => rfl
  | execute s => cases s <;> rfl
  | value a =>
    cases frames with
    | nil => rfl
    | cons frame frames => exact origin_resumeOpenings c _ a frame
  | done | returning _ | failing _ => rfl

end Machine

end LoxMachine
