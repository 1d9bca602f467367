import LoxMachine.Proofs.Session.History
import LoxMachine.Proofs.Session.ScopeMirror

namespace LoxMachine

/-- The class, the class that it extends, and so on. -/
def Class.ancestry : Class → List Class
  | ⟨identity, name, none, methods⟩ => [⟨identity, name, none, methods⟩]
  | ⟨identity, name, some base, methods⟩ => ⟨identity, name, some base, methods⟩ :: base.ancestry

/-- Every class that is extended is older, and a method is that of the nearest class that has one of
the name. -/
structure Class.Grounded (k : Class) : Prop where
  older : k.ancestry.Pairwise fun sub base => base.identity < sub.identity
  search : ∀ name, k.findMethod name = k.ancestry.findSome? (·.methods.get? name)

theorem Class.findMethod_eq (name : String) :
    ∀ k : Class, k.findMethod name = k.ancestry.findSome? (·.methods.get? name)
  | ⟨_, _, none, methods⟩ => by
    rw [ancestry, findMethod, List.findSome?_singleton]
    cases methods.get? name <;> rfl
  | ⟨_, _, some base, methods⟩ => by
    rw [ancestry, findMethod, List.findSome?_cons, findMethod_eq name base]
    cases methods.get? name <;> rfl

/-- A scope or a value. -/
inductive Thing where
  | scope (e : ScopeId)
  | value (a : Value)

/-- The values that a frame holds. -/
def Frame.values : Frame → List Value
  | rightOperand left _ _ _ => [left]
  | argument calleeValue _ _ given _ => calleeValue :: given
  | field object _ | construct object => [.object object]
  | assign _ _ | operand _ | leftOperand _ _ _ | shortcut _ _ | callee _ _ _ | property _
  | target _ _ | discard | print | define _ | choose _ _ | test _ _ | again _ _ | giveBack
  | heritage _ _ _ | sequence _ | leaveBlock _ | leaveCall _ _ => []

/-- The scopes that a frame leads to. -/
def Frame.scopes : Frame → List ScopeId
  | leaveBlock scope => [scope]
  | leaveCall scope initialized => scope :: initialized.toList
  | rightOperand _ _ _ _ | argument _ _ _ _ _ | field _ _ | construct _
  | assign _ _ | operand _ | leftOperand _ _ _ | shortcut _ _ | callee _ _ _ | property _
  | target _ _ | discard | print | define _ | choose _ _ | test _ _ | again _ _ | giveBack
  | heritage _ _ _ | sequence _ => []

def Control.values : Control → List Value
  | value a | returning a => [a]
  | evaluate _ | execute _ | done | failing _ => []

namespace Machine

/-- What is reached from a state of a run and from the values that the host keeps or that its functions
were given. -/
inductive Reaches (m : Machine) (held : List Value) : Thing → Prop
  | globals : Reaches m held (.scope Store.globals)
  | current : Reaches m held (.scope m.scope)
  | held {a} : a ∈ held → Reaches m held (.value a)
  | control {a} : a ∈ m.control.values → Reaches m held (.value a)
  | waiting {frame a} : frame ∈ m.frames → a ∈ frame.values → Reaches m held (.value a)
  | leaving {frame e} : frame ∈ m.frames → e ∈ frame.scopes → Reaches m held (.scope e)
  | enclosing {e outer} : Reaches m held (.scope e) → m.store.scopes.enclosing e = some outer →
      Reaches m held (.scope outer)
  | bound {e name a} : Reaches m held (.scope e) → m.store.scopes.get e name = .ok a →
      Reaches m held (.value a)
  | field {o name a} : Reaches m held (.value (.object o)) →
      (m.store.fieldsOf o).get? name = some a → Reaches m held (.value a)
  | kept {a} : a ∈ m.store.kept → Reaches m held (.value a)
  | closure {f} : Reaches m held (.value (.closure f)) → Reaches m held (.scope f.scope)
  | kind {o} : Reaches m held (.value (.object o)) → Reaches m held (.value (.cls o.cls))
  | base {k base} : Reaches m held (.value (.cls k)) → k.superclass = some base →
      Reaches m held (.value (.cls base))
  | method {k entry} : Reaches m held (.value (.cls k)) → entry ∈ k.methods →
      Reaches m held (.scope entry.2.scope)

end Machine

def Thing.Made (i : Inventory) : Thing → Prop
  | scope e => e < i.scopes
  | value a => a.Made i

theorem Frame.Made.values {i : Inventory} {frame : Frame} (made : frame.Made i) :
    ∀ a ∈ frame.values, a.Made i := by
  cases frame with
  | rightOperand left _ _ _ => exact List.forall_mem_singleton.mpr made
  | argument calleeValue _ _ given _ => exact List.forall_mem_cons.mpr made
  | field object _ | construct object => exact List.forall_mem_singleton.mpr made
  | _ => exact fun _ absent => nomatch absent

theorem Frame.Made.scopes {i : Inventory} {frame : Frame} (made : frame.Made i) :
    ∀ e ∈ frame.scopes, e < i.scopes := by
  cases frame with
  | leaveBlock scope => exact List.forall_mem_singleton.mpr made
  | leaveCall scope initialized =>
    exact List.forall_mem_cons.mpr
      ⟨made.1, fun own member => made.2 own (Option.mem_toList.mp member)⟩
  | _ => exact fun _ absent => nomatch absent

theorem Control.Made.values {i : Inventory} {control : Control} (made : control.Made i) :
    ∀ a ∈ control.values, a.Made i := by
  cases control with
  | value a | returning a => exact List.forall_mem_singleton.mpr made
  | _ => exact fun _ absent => nomatch absent

/-- Only what was made is reached. -/
theorem made_of_reaches {i : Inventory} {m : Machine} {held : List Value} (made : m.Made i)
    (kept : ∀ a ∈ held, a.Made i) {x : Thing} (reaches : m.Reaches held x) : x.Made i := by
  induction reaches with
  | globals => exact made.store.globals
  | current => exact made.scope
  | held member => exact kept _ member
  | control member => exact made.control.values _ member
  | waiting member value => exact (made.frames _ member).values _ value
  | leaving member scope => exact (made.frames _ member).scopes _ scope
  | enclosing _ around ih =>
    exact Nat.lt_trans (made.store.scopes.lt_of_enclosing around) ih
  | bound _ found _ => exact made.store.get found
  | field _ found _ => exact made.store.field found
  | kept member => exact made.store.kept _ member
  | closure _ ih => exact Closure.Made.scope ih
  | kind _ ih => exact made.store.holds ih
  | base _ extended ih => exact ((made.store.founded _ ih).base _ extended).1
  | method _ member ih => exact ((made.store.founded _ ih).methods _ member).scope

theorem grounded_of_made {i : Inventory} (founded : ∀ k ∈ i.classes, k.Founded i) :
    ∀ {k : Class}, k ∈ i.classes → (∀ base ∈ k.ancestry, base.identity ≤ k.identity) ∧
      k.ancestry.Pairwise fun sub base => base.identity < sub.identity
  | ⟨identity, name, none, methods⟩, _ =>
    ⟨List.forall_mem_singleton.mpr (Nat.le_refl _), List.pairwise_singleton _ _⟩
  | ⟨identity, name, some base, methods⟩, made => by
    obtain ⟨known, older⟩ := (founded _ made).base base rfl
    obtain ⟨below, further⟩ := grounded_of_made founded known
    have before : ∀ other ∈ base.ancestry, other.identity < identity :=
      fun other member => Nat.lt_of_le_of_lt (below other member) older
    refine ⟨List.forall_mem_cons.mpr ⟨Nat.le_refl _, ?_⟩, List.pairwise_cons.mpr ⟨before, further⟩⟩
    exact fun other member => Nat.le_of_lt (before other member)

namespace Session

/-- In every state of a run of any program, the way outward from a scope that is reached leads to
the global scope, and the way from a class that is reached through the classes that it extends ends.
No scope and no class comes twice, as a class is known by its identity. -/
theorem grounded_of_reachable {programs : List (List Stmt)} {held : List Value} {s : Session}
    (reached : Reachable programs held s) (depth : Nat) (program : List Stmt) (ds : Distances)
    (n : Nat) :
    let m := s.point depth program ds n
    (∀ e, m.Reaches held (.scope e) → m.store.scopes.Grounded Store.globals e) ∧
      (∀ k, m.Reaches held (.value (.cls k)) → k.Grounded) ∧
      ∀ k other, m.Reaches held (.value (.cls k)) → m.Reaches held (.value (.cls other)) →
        k.identity = other.identity → k = other := by
  intro m
  obtain ⟨events, history⟩ := exists_history reached
  obtain ⟨i, _, made⟩ := made_of_history history
  obtain ⟨j, _, _, here, kept⟩ := made.point depth program ds n
  refine ⟨fun e reaches => ?_, fun k reaches => ?_, fun k other one two => ?_⟩
  · have there : e < j.scopes := made_of_reaches here kept reaches
    exact here.store.scopes.grounded (here.store.sized ▸ there)
  · have known : k ∈ j.classes := made_of_reaches here kept reaches
    exact ⟨(grounded_of_made here.store.founded known).2, fun name => k.findMethod_eq name⟩
  · exact here.store.class_unique (made_of_reaches here kept one) (made_of_reaches here kept two)

def cyclicProgram : List Stmt :=
  [.classDecl 1 (firstLine "A") none [],
    .classDecl 3 (firstLine "B") (some ⟨2, firstLine "A"⟩) [],
    .classDecl 5 (firstLine "A") (some ⟨4, firstLine "B"⟩) []]

def cyclicClass : Class := ⟨2, "A", some ⟨1, "B", some ⟨0, "A", none, []⟩, []⟩, []⟩

/-- It extends the class that had the name at first. -/
theorem grounded_of_cyclic :
    let s := empty "main"
    let m := s.point 9 cyclicProgram [] 20
    s.Accepts "class A {} class B < A {} class A < B {}" cyclicProgram [] ∧
      m.store.scopes.get Store.globals "A" = .ok (.cls cyclicClass) ∧
      cyclicClass.ancestry.map (·.name) = ["A", "B", "A"] ∧
      m.Reaches [] (.value (.cls cyclicClass)) ∧ cyclicClass.Grounded ∧
      m.store.scopes.Grounded Store.globals m.scope := by
  have read : (empty "main").read "class A {} class B < A {} class A < B {}" =
      ({ empty "main" with nextId := 6 }, .ok cyclicProgram) := by cbv
  have found : ((empty "main").point 9 cyclicProgram [] 20).store.scopes.get Store.globals "A" =
      .ok (.cls cyclicClass) := by rfl
  have reaches : ((empty "main").point 9 cyclicProgram [] 20).Reaches []
      (.value (.cls cyclicClass)) := .bound .globals found
  obtain ⟨scopes, classes, _⟩ := grounded_of_reachable (.empty "main") 9 cyclicProgram [] 20
  exact ⟨⟨congrArg Prod.snd read, by rfl⟩, found, rfl, reaches, classes _ reaches,
    scopes _ .current⟩

end Session

end LoxMachine
