import LoxMachine.Machine.State
import LoxMachine.Machine.Operators
import LoxMachine.Program.Form

namespace LoxMachine.Machine

def evaluating (m : Machine) (e : Expr) (frame : Frame) : Machine :=
  { m with control := .evaluate e, frames := frame :: m.frames }

def give (m : Machine) (v : Value) : Machine := { m with control := .value v }

def finish (m : Machine) : Machine := { m with control := .done }

def fail (m : Machine) (f : Failure) : Machine := { m with control := .failing f }

def complain (m : Machine) (t : Token) (c : Complaint) : Machine := m.fail (.against t c)

def giveResult (m : Machine) : Except Failure Value → Machine
  | .ok v => m.give v
  | .error f => m.fail f

def giveBound (m : Machine) : Except ScopeError Value → Machine
  | .ok v => m.give v
  | .error e => m.fail (.scope e)

/-- The value of a name: in the scope at its distance, or else among the globals. -/
def lookUp (c : Setting) (m : Machine) (id : NodeId) (name : Token) : Machine :=
  match c.distances.lookup id with
  | some d => m.giveBound (m.store.scopes.getAt m.scope d name.lexeme)
  | none =>
    match m.store.scopes.get Store.globals name.lexeme with
    | .ok v => m.give v
    | .error _ => m.complain name (.undefinedVariable name.lexeme)

/-- Gives a name a new value: in the scope at its distance, or else among the globals. -/
def assignTo (c : Setting) (m : Machine) (id : NodeId) (name : Token) (v : Value) : Machine :=
  match c.distances.lookup id with
  | some d =>
    match m.store.scopes.ancestor m.scope d with
    | .ok e => { m with control := .value v, store := m.store.define e name.lexeme v }
    | .error e => m.fail (.scope e)
  | none =>
    if m.store.scopes.contains Store.globals name.lexeme then
      { m with control := .value v, store := m.store.define Store.globals name.lexeme v }
    else m.complain name (.undefinedVariable name.lexeme)

def giveBoundMethod (m : Machine) (method : Method) (receiver : Value) : Machine :=
  let (store, f) := m.store.bind method receiver
  { m with control := .value (.closure f), store }

/-- A method of the superclass, bound to the object that `this` names one scope further in. -/
def lookUpSuper (c : Setting) (m : Machine) (id : NodeId) (method : Token) : Machine :=
  match c.distances.lookup id with
  | none => m.fail (.noDistance id)
  | some d =>
    match m.store.scopes.getAt m.scope d "super" with
    | .error e => m.fail (.scope e)
    | .ok base =>
      match m.store.scopes.getAt m.scope (d - 1) "this" with
      | .error e => m.fail (.scope e)
      | .ok receiver =>
        match base with
        | .cls base =>
          match base.findMethod method.lexeme with
          | some found => m.giveBoundMethod found receiver
          | none => m.complain method (.undefinedProperty method.lexeme)
        | _ => m.fail .superNotClass

def evaluate (c : Setting) (m : Machine) : Expr → Machine
  | .literal _ value => m.give value.toValue
  | .read use => lookUp c m use.id use.name
  | .assign id name value => m.evaluating value (.assign id name)
  | .unary _ operator right => m.evaluating right (.operand operator)
  | .binary _ left operator right => m.evaluating left (.leftOperand left operator right)
  | .logical _ left operator right => m.evaluating left (.shortcut operator right)
  | .grouping _ inner => { m with control := .evaluate inner }
  | .call _ callee paren arguments => m.evaluating callee (.callee callee paren arguments)
  | .get _ object name => m.evaluating object (.property name)
  | .set _ object name value => m.evaluating object (.target name value)
  | .this id keyword => lookUp c m id keyword
  | .super id _ method => lookUpSuper c m id method

def bindParameters (s : Store) (e : ScopeId) : List Token → List Value → Store
  | param :: params, v :: vs => bindParameters (s.define e param.lexeme v) e params vs
  | _, _ => s

def enter (c : Setting) (m : Machine) (f : Closure) (arguments : List Value) : Machine :=
  if c.depthLimit ≤ m.depth then m.fail .callDepth
  else
    let (store, e) := m.store.openScope f.scope
    let store := bindParameters store e f.decl.params arguments
    let initialized := if f.isInitializer then some f.scope else none
    { m with
      control := .done
      frames := .sequence f.decl.body :: .leaveCall m.scope initialized :: m.frames
      scope := e
      depth := m.depth + 1
      store }

def instantiate (c : Setting) (m : Machine) (cls : Class) (arguments : List Value) : Machine :=
  let (store, object) := m.store.instantiate cls
  match cls.initializer with
  | none => { m with control := .value (.object object), store }
  | some method =>
    let (store, f) := store.bind method (.object object)
    enter c { m with store, frames := .construct object :: m.frames } f arguments

def callHost (m : Machine) (f : Native) (arguments : List Value) : Machine :=
  let (store, reply) := m.store.callHost f arguments
  let m := { m with store }
  match reply with
  | .literal value => m.give value.toValue
  | .argument index => m.give (arguments[index]?.getD .nil)
  | .recalled choose links => m.give (m.store.recollect choose links)
  | .failure text line file => m.fail (.host text line file)

def call (c : Setting) (m : Machine) (callee : Expr) (paren : Token) (calleeValue : Value)
    (arguments : List Value) : Machine :=
  match calleeValue.callable? with
  | none => m.complain paren (.notCallable callee.form calleeValue.text)
  | some target =>
    if arguments.length ≠ target.arity then
      m.complain paren (.argumentCount target.arity arguments.length)
    else match target with
      | .closure f => enter c m f arguments
      | .native f => m.callHost f arguments
      | .cls cls => instantiate c m cls arguments

def supply (c : Setting) (m : Machine) (calleeValue : Value) (callee : Expr) (paren : Token)
    (given : List Value) : List Expr → Machine
  | [] => call c m callee paren calleeValue given.reverse
  | e :: rest => m.evaluating e (.argument calleeValue callee paren given rest)

/-- The property of a value: a field, or else a method bound to the object. -/
def readProperty (m : Machine) (name : Token) : Value → Machine
  | .object o =>
    match (m.store.fieldsOf o).get? name.lexeme with
    | some v => m.give v
    | none =>
      match o.cls.findMethod name.lexeme with
      | some method => m.giveBoundMethod method (.object o)
      | none => m.complain name (.undefinedProperty name.lexeme)
  | _ => m.complain name .noProperties

/-- The methods of a class by their names; of two with one name, the later. -/
def methodTable (scope : ScopeId) (methods : List FunctionDecl) : Table Method :=
  methods.foldl (fun table decl =>
    let name := decl.name.lexeme
    table.put name ⟨decl, scope, name == "init"⟩) []

/-- Makes a class. Its name is bound before, so the methods can use it, and the methods of a class
with a superclass stand in a scope that names the superclass. -/
def defineClass (m : Machine) (name : Token) (superclass : Option Class)
    (methods : List FunctionDecl) : Machine :=
  let store := m.store.define m.scope name.lexeme .nil
  let (store, around) := match superclass with
    | none => (store, m.scope)
    | some base =>
      let (store, e) := store.openScope m.scope
      (store.define e "super" (.cls base), e)
  let (store, identity) := store.identify
  let table := methodTable around methods
  let store := store.define m.scope name.lexeme (.cls ⟨identity, name.lexeme, superclass, table⟩)
  { m with
    control := .done
    store
    classes := (name.lexeme, table.length) :: m.classes }

def defineFunction (m : Machine) (decl : FunctionDecl) : Machine :=
  let (store, identity) := m.store.identify
  let f : Closure := ⟨identity, decl, m.scope, false⟩
  { m with control := .done, store := store.define m.scope decl.name.lexeme (.closure f) }

def execute (m : Machine) : Stmt → Machine
  | .expression _ e => m.evaluating e .discard
  | .print _ e => m.evaluating e .print
  | .var _ name none =>
    { m with control := .done, store := m.store.define m.scope name.lexeme .nil }
  | .var _ name (some e) => m.evaluating e (.define name)
  | .block _ body =>
    let (store, e) := m.store.openScope m.scope
    { m with
      control := .done
      frames := .sequence body :: .leaveBlock m.scope :: m.frames
      scope := e
      store }
  | .branch _ condition yes no => m.evaluating condition (.choose yes no)
  | .loop _ condition body => m.evaluating condition (.test condition body)
  | .function decl => m.defineFunction decl
  | .returns _ _ none => { m with control := .returning .nil }
  | .returns _ _ (some e) => m.evaluating e .giveBack
  | .classDecl _ name none methods => m.defineClass name none methods
  | .classDecl _ name (some base) methods =>
    m.evaluating (.read base) (.heritage base.name name methods)

/-- Ends a call with a value; an initializer gives back its object instead. -/
def leaveCall (m : Machine) (scope : ScopeId) (initialized : Option ScopeId) (v : Value) :
    Machine :=
  let m := { m with scope, depth := m.depth - 1 }
  match initialized with
  | none => m.give v
  | some e => m.giveBound (m.store.scopes.get e "this")

/-- Hands a value to the nearest frame, which is already taken off. -/
def resume (c : Setting) (m : Machine) (v : Value) : Frame → Machine
  | .assign id name => assignTo c m id name v
  | .operand operator => m.giveResult (applyPrefix operator v)
  | .leftOperand left operator right => m.evaluating right (.rightOperand v left operator right)
  | .rightOperand leftValue left operator right =>
    m.giveResult
      (applyBinary (fun _ => (Expr.binary 0 left operator right).form) operator leftValue v)
  | .shortcut operator right =>
    if v.isTruthy = operator.isKeyword .orWord then m.give v
    else { m with control := .evaluate right }
  | .callee callee paren arguments => supply c m v callee paren [] arguments
  | .argument calleeValue callee paren given rest =>
    supply c m calleeValue callee paren (v :: given) rest
  | .property name => m.readProperty name v
  | .target name value =>
    match v with
    | .object o => m.evaluating value (.field o name)
    | _ => m.complain name .noFields
  | .field o name =>
    { m with control := .value v, store := m.store.setField o name.lexeme v }
  | .discard => m.finish
  | .print => { m with control := .done, printed := v.text :: m.printed }
  | .define name =>
    { m with control := .done, store := m.store.define m.scope name.lexeme v }
  | .choose yes no =>
    if v.isTruthy then { m with control := .execute yes }
    else match no with
      | some s => { m with control := .execute s }
      | none => m.finish
  | .test condition body =>
    if v.isTruthy then
      { m with control := .execute body, frames := .again condition body :: m.frames }
    else m.finish
  | .giveBack => { m with control := .returning v }
  | .heritage superclass name methods =>
    match v with
    | .cls base => m.defineClass name (some base) methods
    | _ => m.complain superclass .superclassNotClass
  | .construct o => m.give (.object o)
  | .again _ _ | .sequence _ | .leaveBlock _ | .leaveCall _ _ => m

/-- Tells the nearest frame, which is already taken off, that a statement has ended. -/
def proceed (m : Machine) : Frame → Machine
  | .again condition body => m.evaluating condition (.test condition body)
  | .sequence [] => m
  | .sequence (s :: rest) =>
    { m with control := .execute s, frames := .sequence rest :: m.frames }
  | .leaveBlock scope => { m with scope }
  | .leaveCall scope initialized => m.leaveCall scope initialized .nil
  | _ => m

/-- A `return` passes a frame, unless it is that of the call that it ends. -/
def passReturn (m : Machine) (v : Value) : Frame → Machine
  | .leaveBlock scope => { m with scope }
  | .leaveCall scope initialized => m.leaveCall scope initialized v
  | _ => m

def passFailure (m : Machine) : Frame → Machine
  | .leaveBlock scope => { m with scope }
  | .leaveCall scope _ => { m with scope, depth := m.depth - 1 }
  | _ => m

def isOver (m : Machine) : Bool :=
  match m.control with
  | .evaluate _ | .execute _ => false
  | .value _ | .done | .returning _ | .failing _ => m.frames.isEmpty

/-- The next state; a state with nothing left to do stays. -/
def step (c : Setting) (m : Machine) : Machine :=
  match m.control, m.frames with
  | .evaluate e, _ => evaluate c m e
  | .execute s, _ => execute m s
  | .value v, frame :: frames => resume c { m with frames } v frame
  | .done, frame :: frames => proceed { m with frames } frame
  | .returning v, frame :: frames => passReturn { m with frames } v frame
  | .failing _, frame :: frames => passFailure { m with frames } frame
  | _, [] => m

def run (c : Setting) : Nat → Machine → Machine
  | 0, m => m
  | n + 1, m => if m.isOver then m else run c n (step c m)

end LoxMachine.Machine
