import LoxMachine.Program.Basic
import LoxMachine.Scope.Forest
import LoxMachine.Number.Notation
import LoxMachine.Number.Order

namespace LoxMachine

/-- What tells apart functions and classes that look alike. -/
abbrev Identity := Nat

abbrev ObjectId := Nat

structure Method where
  decl : FunctionDecl
  scope : ScopeId
  isInitializer : Bool

/-- A function with the scope that it stands in, or a method with the scope that names its object. -/
structure Closure where
  identity : Identity
  decl : FunctionDecl
  scope : ScopeId
  isInitializer : Bool

/-- A function of the host, by its place in the store. -/
structure Native where
  name : String
  arity : Nat
  index : Nat
deriving DecidableEq

structure Class where
  identity : Identity
  name : String
  superclass : Option Class
  methods : Table Method

structure Object where
  id : ObjectId
  cls : Class

inductive Value where
  | nil
  | bool (b : Bool)
  | number (n : Number)
  | string (s : String)
  | closure (f : Closure)
  | native (f : Native)
  | cls (c : Class)
  | object (o : Object)

def Method.arity (m : Method) : Nat := m.decl.params.length

namespace Closure

def name (f : Closure) : String := f.decl.name.lexeme

def arity (f : Closure) : Nat := f.decl.params.length

end Closure

namespace Class

/-- The method of that name, of the class itself or else of the nearest class it extends. -/
def findMethod (name : String) : Class → Option Method
  | ⟨_, _, superclass, methods⟩ =>
    match methods.get? name with
    | some method => some method
    | none =>
      match superclass with
      | some base => findMethod name base
      | none => none

def initializer (c : Class) : Option Method := c.findMethod "init"

def arity (c : Class) : Nat :=
  match c.initializer with
  | some f => f.arity
  | none => 0

end Class

inductive Callable where
  | closure (f : Closure)
  | native (f : Native)
  | cls (c : Class)

def Callable.arity : Callable → Nat
  | closure f => f.arity
  | native f => f.arity
  | cls c => c.arity

def Literal.toValue : Literal → Value
  | nil => .nil
  | bool b => .bool b
  | number n => .number n
  | string s => .string s

namespace Value

/-- Everything counts as true but `nil` and `false`. -/
def isTruthy : Value → Bool
  | nil => false
  | bool b => b
  | _ => true

/-- Equality: numbers by value, texts by their characters, what has an identity by that. Values of
different kinds differ. -/
def isEqual : Value → Value → Bool
  | nil, nil => true
  | bool a, bool b => a == b
  | number a, number b => a.sameValue b
  | string a, string b => a == b
  | closure a, closure b => a.identity == b.identity
  | native a, native b => a.index == b.index
  | cls a, cls b => a.identity == b.identity
  | object a, object b => a.id == b.id
  | _, _ => false

def text : Value → String
  | nil => "nil"
  | bool b => if b then "true" else "false"
  | number n => n.printed
  | string s => s
  | closure f => s!"<fn {f.name}>"
  | native f => s!"<fn {f.name}>"
  | cls c => s!"<class {c.name}>"
  | object o => s!"<instance {o.cls.name}>"

def callable? : Value → Option Callable
  | closure f => some (.closure f)
  | native f => some (.native f)
  | cls c => some (.cls c)
  | _ => none

end Value

end LoxMachine
