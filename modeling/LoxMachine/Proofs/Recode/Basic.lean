import LoxMachine.Machine.Store
import LoxMachine.Program.Form
import LoxMachine.Proofs.Scope.Fits

namespace LoxMachine

open Static

/-- New tokens for the nodes of programs. -/
structure Respelling where
  mark : NodeId → Token → Token
  use : NodeId → Token → Token
  declare : NodeId → Token → Token

/-- New tokens for the nodes of programs, and the names that scopes have with them. -/
structure Recoding extends Respelling where
  bound : Origin → String → String
  mark_lexeme : ∀ id t, (mark id t).lexeme = t.lexeme
  mark_kind : ∀ id t, (mark id t).kind = t.kind
  bound_global : ∀ name, bound .global name = name
  bound_this : ∀ origin, bound origin "this" = "this"
  bound_super : ∀ origin, bound origin "super" = "super"
  injective : ∀ origin, ∀ name ∈ origin.names, ∀ other ∈ origin.names,
    bound origin name = bound origin other → name = other

instance : Coe Recoding Respelling := ⟨Recoding.toRespelling⟩

section Trees

variable (ϕ : Respelling)

def Variable.recode (use : Variable) : Variable := ⟨use.id, ϕ.use use.id use.name⟩

mutual

def Expr.recode : Expr → Expr
  | .literal id value => .literal id value
  | .read use => .read (use.recode ϕ)
  | .assign id name value => .assign id (ϕ.use id name) value.recode
  | .unary id operator right => .unary id (ϕ.mark id operator) right.recode
  | .binary id left operator right => .binary id left.recode (ϕ.mark id operator) right.recode
  | .logical id left operator right => .logical id left.recode (ϕ.mark id operator) right.recode
  | .grouping id inner => .grouping id inner.recode
  | .call id callee paren arguments =>
    .call id callee.recode (ϕ.mark id paren) (exprsRecode arguments)
  | .get id object name => .get id object.recode (ϕ.mark id name)
  | .set id object name value => .set id object.recode (ϕ.mark id name) value.recode
  | .this id keyword => .this id (ϕ.use id keyword)
  | .super id keyword method => .super id (ϕ.use id keyword) (ϕ.mark id method)

def exprsRecode : List Expr → List Expr
  | [] => []
  | e :: rest => e.recode :: exprsRecode rest

end

mutual

def Stmt.recode : Stmt → Stmt
  | .expression id e => .expression id (e.recode ϕ)
  | .print id e => .print id (e.recode ϕ)
  | .var id name initializer => .var id (ϕ.declare id name) (initializer.map (·.recode ϕ))
  | .block id body => .block id (stmtsRecode body)
  | .branch id condition yes none => .branch id (condition.recode ϕ) yes.recode none
  | .branch id condition yes (some no) =>
    .branch id (condition.recode ϕ) yes.recode (some no.recode)
  | .loop id condition body => .loop id (condition.recode ϕ) body.recode
  | .function decl => .function decl.recode
  | .returns id keyword value => .returns id (ϕ.mark id keyword) (value.map (·.recode ϕ))
  | .classDecl id name superclass methods =>
    .classDecl id (ϕ.mark id name) (superclass.map (·.recode ϕ)) (methodsRecode methods)

def stmtsRecode : List Stmt → List Stmt
  | [] => []
  | s :: rest => s.recode :: stmtsRecode rest

def FunctionDecl.recode : FunctionDecl → FunctionDecl
  | .mk id name params body =>
    .mk id (ϕ.mark id name) (params.map (ϕ.declare id)) (stmtsRecode body)

def methodsRecode : List FunctionDecl → List FunctionDecl
  | [] => []
  | m :: rest => m.recode :: methodsRecode rest

end

end Trees

variable (ϕ : Recoding)

namespace FunctionDecl

theorem name_recode (decl : FunctionDecl) : (decl.recode ϕ).name.lexeme = decl.name.lexeme := by
  cases decl
  exact ϕ.mark_lexeme _ _

theorem params_recode (decl : FunctionDecl) :
    (decl.recode ϕ).params = decl.params.map (ϕ.declare decl.id) := by
  cases decl
  rfl

end FunctionDecl

theorem methodsRecode_eq_map (methods : List FunctionDecl) :
    methodsRecode ϕ methods = methods.map (·.recode ϕ) := by
  induction methods with
  | nil => rfl
  | cons m rest ih => rw [methodsRecode, ih, List.map_cons]

namespace Table

variable {α β : Type} (names : String → String) (f : α → β)

def recode (t : Table α) : Table β := t.map fun entry => (names entry.1, f entry.2)

variable {names f} {t : Table α} {name : String}

theorem contains_cons (other : String) (a : α) (rest : Table α) (query : String) :
    contains ((other, a) :: rest) query = (query == other || contains rest query) := by
  rw [contains, get?_cons, contains]
  cases query == other <;> rfl

theorem get?_recode (apart : ∀ other, t.contains other = true → names other = names name →
    other = name) : (t.recode names f).get? (names name) = (t.get? name).map f := by
  induction t with
  | nil => rfl
  | cons entry rest ih =>
    obtain ⟨other, a⟩ := entry
    have later := ih fun query member => apart query (by simp [contains_cons, member])
    change get? ((names other, f a) :: recode names f rest) (names name) = _
    rw [get?_cons, get?_cons, later]
    by_cases same : name = other
    · simp [same]
    · have differ : names name ≠ names other := fun equal =>
        same (apart other (by simp [contains_cons]) equal.symm).symm
      simp [same, differ]

theorem put_recode (a : α) (apart : ∀ other, t.contains other = true → names other = names name →
    other = name) : (t.recode names f).put (names name) (f a) = (t.put name a).recode names f := by
  induction t with
  | nil => rfl
  | cons entry rest ih =>
    obtain ⟨other, b⟩ := entry
    have later := ih fun query member => apart query (by simp [contains_cons, member])
    change put ((names other, f b) :: recode names f rest) (names name) (f a) = _
    by_cases same : other = name
    · simp [put, recode, same]
    · have differ : names other ≠ names name := fun equal =>
        same (apart other (by simp [contains_cons]) equal)
      simp only [put, beq_eq_false_iff_ne.mpr same, beq_eq_false_iff_ne.mpr differ,
        Bool.false_eq_true, ↓reduceIte, later]
      rfl

theorem get?_recode_id (t : Table α) (name : String) :
    (t.recode id f).get? name = (t.get? name).map f :=
  @get?_recode α β id f t name fun _ _ same => same

theorem put_recode_id (t : Table α) (name : String) (a : α) :
    (t.recode id f).put name (f a) = (t.put name a).recode id f :=
  @put_recode α β id f t name a fun _ _ same => same

end Table

section Values

variable (ϕ : Respelling)

def Method.recode (m : Method) : Method := ⟨m.decl.recode ϕ, m.scope, m.isInitializer⟩

def Closure.recode (f : Closure) : Closure :=
  ⟨f.identity, f.decl.recode ϕ, f.scope, f.isInitializer⟩

def Class.recode : Class → Class
  | ⟨identity, name, none, methods⟩ =>
    ⟨identity, name, none, methods.recode id (·.recode ϕ)⟩
  | ⟨identity, name, some base, methods⟩ =>
    ⟨identity, name, some base.recode, methods.recode id (·.recode ϕ)⟩

def Object.recode (o : Object) : Object := ⟨o.id, o.cls.recode ϕ⟩

def Value.recode : Value → Value
  | .nil => .nil
  | .bool b => .bool b
  | .number n => .number n
  | .string s => .string s
  | .closure f => .closure (f.recode ϕ)
  | .native f => .native f
  | .cls c => .cls (c.recode ϕ)
  | .object o => .object (o.recode ϕ)

end Values

end LoxMachine
