import LoxMachine.Value.Basic

namespace LoxMachine

/-- How the host reads one value off another. -/
inductive Link where
  | field (name : String)
  | cls
  | superclass

/-- What a function of the host answers: a value that a program could write down, one that it is
given, or one that the host was given at some time, or what links lead to from there. -/
inductive HostReply where
  | literal (value : Literal)
  | argument (index : Nat)
  | recalled (choose : List Value → Nat) (links : List Link)
  | failure (text : String) (line : Option Int) (file : Option String)

/-- A function of the host: it sees how often it was called before, and its arguments. -/
abbrev HostFunction := Nat → List Value → HostReply

structure HostEntry where
  function : HostFunction
  calls : Nat

structure Store where
  scopes : Forest Value
  fields : Array (Table Value)
  host : Array HostEntry
  /-- What the host was given, the last values first. -/
  kept : List Value
  nextIdentity : Identity

namespace Store

def globals : ScopeId := 0

def initial : Store := ⟨⟨#[⟨none, []⟩]⟩, #[], #[], [], 0⟩

def define (s : Store) (e : ScopeId) (name : String) (v : Value) : Store :=
  { s with scopes := s.scopes.define e name v }

def openScope (s : Store) (enclosing : ScopeId) : Store × ScopeId :=
  let (scopes, e) := s.scopes.grow (some enclosing)
  ({ s with scopes }, e)

def identify (s : Store) : Store × Identity :=
  let identity := s.nextIdentity
  ({ s with nextIdentity := identity + 1 }, identity)

def instantiate (s : Store) (c : Class) : Store × Object :=
  let id := s.fields.size
  ({ s with fields := s.fields.push [] }, ⟨id, c⟩)

def fieldsOf (s : Store) (o : Object) : Table Value := s.fields[o.id]?.getD []

def setField (s : Store) (o : Object) (name : String) (v : Value) : Store :=
  { s with fields := s.fields.modify o.id (·.put name v) }

/-- A method made into a function in whose scope `this` is the receiver. -/
def bind (s : Store) (m : Method) (receiver : Value) : Store × Closure :=
  let (s, e) := s.openScope m.scope
  let s := s.define e "this" receiver
  let (s, identity) := s.identify
  (s, ⟨identity, m.decl, e, m.isInitializer⟩)

def addHost (s : Store) (name : String) (arity : Nat) (function : HostFunction) :
    Store × Native :=
  let index := s.host.size
  ({ s with host := s.host.push ⟨function, 0⟩ }, ⟨name, arity, index⟩)

def keep (s : Store) (values : List Value) : Store := { s with kept := values ++ s.kept }

/-- The reply of a function of the host, which counts the call and keeps the arguments. -/
def callHost (s : Store) (f : Native) (arguments : List Value) : Store × HostReply :=
  match s.host[f.index]? with
  | some entry =>
    let reply := entry.function entry.calls arguments
    let host := s.host.modify f.index fun e => { e with calls := e.calls + 1 }
    ({ s with host, kept := arguments ++ s.kept }, reply)
  | none => (s, .literal .nil)

/-- What a link leads to; where there is nothing, it is `nil`. -/
def follow (s : Store) (a : Value) (link : Link) : Value :=
  match link, a with
  | .field name, .object o => ((s.fieldsOf o).get? name).getD .nil
  | .cls, .object o => .cls o.cls
  | .superclass, .cls c =>
    match c.superclass with
    | some base => .cls base
    | none => .nil
  | _, _ => .nil

/-- What the host reads off one of the values that it was given. -/
def recollect (s : Store) (choose : List Value → Nat) (links : List Link) : Value :=
  links.foldl s.follow (s.kept[choose s.kept]?.getD .nil)

end Store

end LoxMachine
