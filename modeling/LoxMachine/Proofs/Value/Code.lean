import LoxMachine.Machine.Store
import LoxMachine.Proofs.Recode.Basic

namespace LoxMachine

structure KeepsSignature (code : FunctionDecl → FunctionDecl) : Prop where
  name : ∀ decl, (code decl).name.lexeme = decl.name.lexeme
  params : ∀ decl, (code decl).params.length = decl.params.length

section Code

variable (code : FunctionDecl → FunctionDecl)

def Method.mapCode (m : Method) : Method := ⟨code m.decl, m.scope, m.isInitializer⟩

def Closure.mapCode (f : Closure) : Closure := ⟨f.identity, code f.decl, f.scope, f.isInitializer⟩

def Class.mapCode : Class → Class
  | ⟨identity, name, none, methods⟩ => ⟨identity, name, none, methods.recode id (·.mapCode code)⟩
  | ⟨identity, name, some base, methods⟩ =>
    ⟨identity, name, some base.mapCode, methods.recode id (·.mapCode code)⟩

def Object.mapCode (o : Object) : Object := ⟨o.id, o.cls.mapCode code⟩

def Callable.mapCode : Callable → Callable
  | .closure f => .closure (f.mapCode code)
  | .native f => .native f
  | .cls c => .cls (c.mapCode code)

def Value.mapCode : Value → Value
  | .nil => .nil
  | .bool b => .bool b
  | .number n => .number n
  | .string s => .string s
  | .closure f => .closure (f.mapCode code)
  | .native f => .native f
  | .cls c => .cls (c.mapCode code)
  | .object o => .object (o.mapCode code)

namespace Class

theorem mapCode_mk (identity : Identity) (name : String) (superclass : Option Class)
    (methods : Table Method) :
    mapCode code ⟨identity, name, superclass, methods⟩ =
      ⟨identity, name, superclass.map (·.mapCode code), methods.recode id (·.mapCode code)⟩ := by
  cases superclass <;> rfl

theorem identity_mapCode (c : Class) : (c.mapCode code).identity = c.identity := by
  obtain ⟨_, _, superclass, _⟩ := c
  cases superclass <;> rfl

theorem name_mapCode (c : Class) : (c.mapCode code).name = c.name := by
  obtain ⟨_, _, superclass, _⟩ := c
  cases superclass <;> rfl

theorem findMethod_mapCode (name : String) :
    ∀ c : Class, (c.mapCode code).findMethod name = (c.findMethod name).map (·.mapCode code)
  | ⟨_, _, none, methods⟩ => by
    simp only [mapCode, findMethod, Table.get?_recode_id]
    cases methods.get? name <;> rfl
  | ⟨_, _, some base, methods⟩ => by
    simp only [mapCode, findMethod, Table.get?_recode_id]
    cases methods.get? name with
    | some m => rfl
    | none => exact findMethod_mapCode name base

theorem initializer_mapCode (c : Class) :
    (c.mapCode code).initializer = c.initializer.map (·.mapCode code) :=
  findMethod_mapCode code "init" c

end Class

namespace Value

theorem mapCode_toValue (l : Literal) : l.toValue.mapCode code = l.toValue := by
  cases l <;> rfl

theorem isTruthy_mapCode (a : Value) : (a.mapCode code).isTruthy = a.isTruthy := by
  cases a <;> rfl

theorem isEqual_mapCode (a b : Value) :
    (a.mapCode code).isEqual (b.mapCode code) = a.isEqual b := by
  cases a with
  | cls c =>
    cases b with
    | cls d => simp only [mapCode, isEqual, Class.identity_mapCode]
    | _ => rfl
  | _ => cases b <;> rfl

theorem callable_mapCode (a : Value) :
    (a.mapCode code).callable? = a.callable?.map (·.mapCode code) := by
  cases a <;> rfl

end Value

end Code

/-- What a function of the host sees of a value. -/
inductive View where
  | literal (value : Literal)
  | closure (identity : Identity) (name : String) (arity : Nat)
  | native (f : Native)
  | cls (identity : Identity) (name : String) (arity : Nat)
  | object (id : ObjectId) (cls : Identity) (name : String)
deriving DecidableEq

def Value.view : Value → View
  | nil => .literal .nil
  | bool b => .literal (.bool b)
  | number n => .literal (.number n)
  | string s => .literal (.string s)
  | closure f => .closure f.identity f.name f.arity
  | native f => .native f
  | cls c => .cls c.identity c.name c.arity
  | object o => .object o.id o.cls.identity o.cls.name

section Signature

variable {code : FunctionDecl → FunctionDecl} (keeps : KeepsSignature code)

include keeps

theorem Method.arity_mapCode (m : Method) : (m.mapCode code).arity = m.arity := keeps.params m.decl

theorem Closure.name_mapCode (f : Closure) : (f.mapCode code).name = f.name := keeps.name f.decl

theorem Closure.arity_mapCode (f : Closure) : (f.mapCode code).arity = f.arity :=
  keeps.params f.decl

theorem Class.arity_mapCode (c : Class) : (c.mapCode code).arity = c.arity := by
  rw [arity, arity, initializer_mapCode]
  cases c.initializer with
  | none => rfl
  | some m => exact m.arity_mapCode keeps

theorem Callable.arity_mapCode (target : Callable) :
    (target.mapCode code).arity = target.arity := by
  cases target with
  | closure f => exact f.arity_mapCode keeps
  | native f => rfl
  | cls c => exact c.arity_mapCode keeps

theorem Value.text_mapCode (a : Value) : (a.mapCode code).text = a.text := by
  cases a with
  | closure f => simp only [mapCode, text, f.name_mapCode keeps]
  | cls c => simp only [mapCode, text, Class.name_mapCode]
  | object o => simp only [mapCode, Object.mapCode, text, Class.name_mapCode]
  | nil | bool | number | string | native => rfl

theorem Value.view_mapCode (a : Value) : (a.mapCode code).view = a.view := by
  cases a with
  | closure f =>
    change View.closure f.identity (f.mapCode code).name (f.mapCode code).arity = _
    rw [f.name_mapCode keeps, f.arity_mapCode keeps]
    rfl
  | cls c =>
    simp only [mapCode, view, Class.identity_mapCode, Class.name_mapCode, c.arity_mapCode keeps]
  | object o =>
    simp only [mapCode, Object.mapCode, view, Class.identity_mapCode, Class.name_mapCode]
  | nil | bool | number | string | native => rfl

end Signature

end LoxMachine
