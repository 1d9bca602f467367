import LoxMachine.Machine.Step
import LoxMachine.Proofs.Scope.Levels

namespace LoxMachine

open Static

def FunctionDecl.origin : FunctionDecl → Origin
  | .mk id _ params body => functionOrigin id params body

namespace Machine

def enterOpens (c : Setting) (m : Machine) (decl : FunctionDecl) : List Origin :=
  if c.depthLimit ≤ m.depth then [] else [decl.origin]

/-- What calling a value opens. -/
def callOpens (c : Setting) (m : Machine) (calleeValue : Value) (arguments : List Value) :
    List Origin :=
  match calleeValue.callable? with
  | none => []
  | some target =>
    if arguments.length ≠ target.arity then []
    else match target with
      | .closure f => enterOpens c m f.decl
      | .native _ => []
      | .cls cls =>
        match cls.initializer with
        | none => []
        | some method => .receiver :: enterOpens c m method.decl

def supplyOpens (c : Setting) (m : Machine) (calleeValue : Value) (given : List Value) :
    List Expr → List Origin
  | [] => callOpens c m calleeValue given.reverse
  | _ :: _ => []

/-- What reading a property opens: a scope for the object, if it is a method. -/
def propertyOpens (m : Machine) (name : Token) : Value → List Origin
  | .object o =>
    match (m.store.fieldsOf o).get? name.lexeme with
    | some _ => []
    | none =>
      match o.cls.findMethod name.lexeme with
      | some _ => [.receiver]
      | none => []
  | _ => []

/-- What reading a method of the superclass opens. -/
def superOpens (c : Setting) (m : Machine) (id : NodeId) (method : Token) : List Origin :=
  match c.distances.lookup id with
  | none => []
  | some d =>
    match m.store.scopes.getAt m.scope d "super" with
    | .error _ => []
    | .ok base =>
      match m.store.scopes.getAt m.scope (d - 1) "this" with
      | .error _ => []
      | .ok _ =>
        match base with
        | .cls base =>
          match base.findMethod method.lexeme with
          | some _ => [.receiver]
          | none => []
        | _ => []

def evaluateOpens (c : Setting) (m : Machine) : Expr → List Origin
  | .super id _ method => superOpens c m id method
  | _ => []

def executeOpens : Stmt → List Origin
  | .block id body => [.block id (namesOf body)]
  | _ => []

/-- What handing a value to a frame opens. -/
def resumeOpens (c : Setting) (m : Machine) (v : Value) : Frame → List Origin
  | .callee _ _ arguments => supplyOpens c m v [] arguments
  | .argument calleeValue _ _ given rest => supplyOpens c m calleeValue (v :: given) rest
  | .property name => propertyOpens m name v
  | .heritage _ _ _ =>
    match v with
    | .cls _ => [.heritage]
    | _ => []
  | _ => []

def opens (c : Setting) (m : Machine) : List Origin :=
  match m.control, m.frames with
  | .evaluate e, _ => evaluateOpens c m e
  | .execute s, _ => executeOpens s
  | .value v, frame :: frames => resumeOpens c { m with frames } v frame
  | _, _ => []

end Machine

end LoxMachine
