import LoxMachine.Scope.Table
import LoxMachine.Text.Quoted

namespace LoxMachine

abbrev ScopeId := Nat

structure Scope (α : Type) where
  enclosing : Option ScopeId
  bindings : Table α

/-- All scopes so far, each after the one around it. -/
structure Forest (α : Type) where
  scopes : Array (Scope α)

inductive ScopeError where
  | unbound (name : String)
  | tooFar (distance : Int)
deriving DecidableEq

def ScopeError.message : ScopeError → String
  | unbound name => name
  | tooFar distance => s!"No enclosing environment at distance {distance}"

namespace Forest

variable {α : Type}

def empty : Forest α := ⟨#[]⟩

def grow (f : Forest α) (enclosing : Option ScopeId) : Forest α × ScopeId :=
  let id := f.scopes.size
  (⟨f.scopes.push ⟨enclosing, []⟩⟩, id)

def bindings (f : Forest α) (e : ScopeId) : Table α :=
  match f.scopes[e]? with
  | some s => s.bindings
  | none => []

def enclosing (f : Forest α) (e : ScopeId) : Option ScopeId :=
  f.scopes[e]?.bind (·.enclosing)

def contains (f : Forest α) (e : ScopeId) (name : String) : Bool := (f.bindings e).contains name

def define (f : Forest α) (e : ScopeId) (name : String) (a : α) : Forest α :=
  ⟨f.scopes.modify e fun s => { s with bindings := s.bindings.put name a }⟩

def get (f : Forest α) (e : ScopeId) (name : String) : Except ScopeError α :=
  match (f.bindings e).get? name with
  | some a => .ok a
  | none => .error (.unbound name)

def assign (f : Forest α) (e : ScopeId) (name : String) (a : α) : Except ScopeError (Forest α) :=
  if f.contains e name then .ok (f.define e name a) else .error (.unbound name)

theorem bindings_define (f : Forest α) (e query : ScopeId) (name : String) (a : α) :
    (f.define e name a).bindings query =
      if e = query ∧ e < f.scopes.size then (f.bindings e).put name a else f.bindings query := by
  simp only [define, bindings, Array.getElem?_modify]
  by_cases same : e = query
  · subst same
    by_cases inside : e < f.scopes.size
    · simp only [inside, and_self, ↓reduceIte, Array.getElem?_eq_getElem, Option.map_some]
    · have outside : f.scopes[e]? = none := Array.getElem?_eq_none (Nat.le_of_not_lt inside)
      simp only [inside, and_false, ↓reduceIte, outside, Option.map_none]
  · simp only [same, false_and, ↓reduceIte]

theorem enclosing_define (f : Forest α) (e query : ScopeId) (name : String) (a : α) :
    (f.define e name a).enclosing query = f.enclosing query := by
  simp only [define, enclosing, Array.getElem?_modify]
  by_cases same : e = query
  · subst same
    simp only [↓reduceIte]
    cases f.scopes[e]? <;> rfl
  · simp only [same, ↓reduceIte]

def outward (f : Forest α) : Nat → ScopeId → Option ScopeId
  | 0, e => some e
  | n + 1, e => (f.enclosing e).bind (f.outward n)

/-- The scope at a distance; a distance of zero or less is the scope itself. -/
def ancestor (f : Forest α) (e : ScopeId) (distance : Int) : Except ScopeError ScopeId :=
  match f.outward distance.toNat e with
  | some target => .ok target
  | none => .error (.tooFar distance)

def getAt (f : Forest α) (e : ScopeId) (distance : Int) (name : String) : Except ScopeError α := do
  f.get (← f.ancestor e distance) name

/-- Binds the name in the scope at a distance, whether it was bound there or not. -/
def assignAt (f : Forest α) (e : ScopeId) (distance : Int) (name : String) (a : α) :
    Except ScopeError (Forest α) := do
  return f.define (← f.ancestor e distance) name a

def chainUpTo (f : Forest α) : Nat → ScopeId → List ScopeId
  | 0, _ => []
  | n + 1, e =>
    match f.enclosing e with
    | some outer => outer :: f.chainUpTo n outer
    | none => []

def chain (f : Forest α) (e : ScopeId) : List ScopeId := f.chainUpTo f.scopes.size e

def describe (f : Forest α) (e : ScopeId) : String :=
  let names := (f.bindings e).sorted.names.map Text.quoted
  s!"<Environment depth={(f.chain e).length} names={Text.bracketed names}>"

end Forest

end LoxMachine
