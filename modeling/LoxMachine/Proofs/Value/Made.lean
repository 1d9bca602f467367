import Mathlib.Data.List.Pairwise
import LoxMachine.Proofs.Scope.Chain
import LoxMachine.Proofs.Value.Fits

namespace LoxMachine

structure Inventory where
  scopes : Nat
  natives : List Native
  classes : List Class
  objects : List Object

namespace Inventory

structure Extends (i j : Inventory) : Prop where
  scopes : i.scopes ≤ j.scopes
  natives : i.natives <+: j.natives
  classes : i.classes <+: j.classes
  objects : i.objects <+: j.objects

variable {i j k : Inventory}

theorem Extends.refl (i : Inventory) : Extends i i :=
  ⟨Nat.le_refl _, List.prefix_refl _, List.prefix_refl _, List.prefix_refl _⟩

theorem Extends.trans (first : Extends i j) (second : Extends j k) : Extends i k :=
  ⟨Nat.le_trans first.scopes second.scopes, first.natives.trans second.natives,
    first.classes.trans second.classes, first.objects.trans second.objects⟩

def addScope (i : Inventory) : Inventory := { i with scopes := i.scopes + 1 }

def addNative (i : Inventory) (f : Native) : Inventory := { i with natives := i.natives ++ [f] }

def addClass (i : Inventory) (k : Class) : Inventory := { i with classes := i.classes ++ [k] }

def addObject (i : Inventory) (o : Object) : Inventory := { i with objects := i.objects ++ [o] }

theorem extends_addScope (i : Inventory) : i.Extends i.addScope :=
  { Extends.refl i with scopes := Nat.le_succ _ }

theorem extends_addNative (i : Inventory) (f : Native) : i.Extends (i.addNative f) :=
  { Extends.refl i with natives := List.prefix_append _ _ }

theorem extends_addClass (i : Inventory) (k : Class) : i.Extends (i.addClass k) :=
  { Extends.refl i with classes := List.prefix_append _ _ }

theorem extends_addObject (i : Inventory) (o : Object) : i.Extends (i.addObject o) :=
  { Extends.refl i with objects := List.prefix_append _ _ }

end Inventory

/-- A method that a class has under the name, in a scope that is there. Only one named `init` is an
initializer. -/
structure Method.Made (i : Inventory) (name : String) (m : Method) : Prop where
  scope : m.scope < i.scopes
  named : m.decl.name.lexeme = name
  initializer : m.isInitializer = (name == "init")

structure Class.Founded (i : Inventory) (k : Class) : Prop where
  base : ∀ base, k.superclass = some base → base ∈ i.classes ∧ base.identity < k.identity
  methods : ∀ entry ∈ k.methods, entry.2.Made i entry.1

structure Closure.Made (i : Inventory) (f : Closure) : Prop where
  scope : f.scope < i.scopes
  bound : f.isInitializer = true → f.scope ≠ Store.globals

def Value.Made (i : Inventory) : Value → Prop
  | .closure f => f.Made i
  | .native f => i.natives[f.index]? = some f
  | .cls k => k ∈ i.classes
  | .object o => i.objects[o.id]? = some o
  | .nil | .bool _ | .number _ | .string _ => True

theorem made_toValue (i : Inventory) (l : Literal) : l.toValue.Made i := by
  cases l <;> exact True.intro

theorem getElem?_mono {α : Type} {xs ys : List α} (early : xs <+: ys) {n : Nat} {x : α}
    (here : xs[n]? = some x) : ys[n]? = some x := by
  obtain ⟨more, rfl⟩ := early
  rw [List.getElem?_append_left (List.getElem?_eq_some_iff.mp here).1, here]

theorem getElem?_concat {α : Type} {xs : List α} {x y : α} {n : Nat}
    (here : (xs ++ [y])[n]? = some x) : xs[n]? = some x ∨ n = xs.length ∧ x = y := by
  rcases Nat.lt_or_ge n xs.length with old | new
  · exact .inl ((List.getElem?_append_left old).symm.trans here)
  · have inside := (List.getElem?_eq_some_iff.mp here).1
    rw [List.length_append, List.length_singleton] at inside
    cases Nat.le_antisymm (Nat.le_of_lt_succ inside) new
    rw [List.getElem?_concat_length] at here
    exact .inr ⟨rfl, (Option.some.inj here).symm⟩

section Extends

variable {i j : Inventory} (grown : i.Extends j)

include grown

theorem Method.Made.later {name : String} {m : Method} (made : m.Made i name) : m.Made j name :=
  { made with scope := Nat.lt_of_lt_of_le made.scope grown.scopes }

theorem Class.Founded.later {k : Class} (founded : k.Founded i) : k.Founded j := by
  refine ⟨fun base extended => ?_, fun entry member => (founded.methods entry member).later grown⟩
  obtain ⟨made, older⟩ := founded.base base extended
  exact ⟨grown.classes.subset made, older⟩

theorem Closure.Made.later {f : Closure} (made : f.Made i) : f.Made j :=
  { made with scope := Nat.lt_of_lt_of_le made.scope grown.scopes }

theorem Value.Made.later {a : Value} (made : a.Made i) : a.Made j := by
  cases a with
  | closure f => exact Closure.Made.later grown made
  | native f => exact getElem?_mono grown.natives made
  | cls k => exact grown.classes.subset made
  | object o => exact getElem?_mono grown.objects made
  | nil | bool b | number n | string s => exact True.intro

end Extends

/-- A store in which everything was made that it holds. -/
structure Store.Made (i : Inventory) (s : Store) : Prop where
  sized : i.scopes = s.scopes.scopes.size
  scopes : s.scopes.Ordered
  hosts : i.natives.length = s.host.size
  natives : ∀ n (f : Native), i.natives[n]? = some f → f.index = n
  counted : i.objects.length = s.fields.size
  objects : ∀ n (o : Object), i.objects[n]? = some o → o.id = n ∧ o.cls ∈ i.classes
  founded : ∀ k ∈ i.classes, k.Founded i
  older : ∀ k ∈ i.classes, k.identity < s.nextIdentity
  identities : i.classes.Pairwise (·.identity < ·.identity)
  bound : ∀ e, ∀ entry ∈ s.scopes.bindings e, entry.2.Made i
  fields : ∀ o, ∀ entry ∈ s.fieldsOf o, entry.2.Made i
  kept : ∀ a ∈ s.kept, a.Made i

theorem made_findMethod {i : Inventory} {name : String} {found : Method}
    (founded : ∀ k ∈ i.classes, k.Founded i) :
    ∀ {k : Class}, k ∈ i.classes → k.findMethod name = some found → found.Made i name
  | ⟨identity, own, superclass, methods⟩, made, same => by
    have here := founded _ made
    unfold Class.findMethod at same
    split at same
    · rename_i m known
      cases same
      exact here.methods _ (Table.mem_of_get? known)
    · cases superclass with
      | none => cases same
      | some base => exact made_findMethod founded (here.base base rfl).1 same

namespace Store

variable {i j : Inventory} {s : Store}

theorem Made.globals (made : s.Made i) : Store.globals < i.scopes :=
  made.sized ▸ made.scopes.inside

theorem Made.get (made : s.Made i) {e : ScopeId} {name : String} {a : Value}
    (found : s.scopes.get e name = .ok a) : a.Made i := by
  unfold Forest.get at found
  split at found
  · rename_i b here
    cases found
    exact made.bound e _ (Table.mem_of_get? here)
  · cases found

theorem Made.getAt (made : s.Made i) {e : ScopeId} {d : Int} {name : String} {a : Value}
    (found : s.scopes.getAt e d name = .ok a) : a.Made i := by
  unfold Forest.getAt at found
  cases reached : s.scopes.ancestor e d with
  | error _ =>
    rw [reached] at found
    cases found
  | ok target =>
    rw [reached] at found
    exact made.get found

theorem Made.field (made : s.Made i) {o : Object} {name : String} {a : Value}
    (found : (s.fieldsOf o).get? name = some a) : a.Made i :=
  made.fields o _ (Table.mem_of_get? found)

theorem Made.holds (made : s.Made i) {o : Object} (here : (Value.object o).Made i) :
    (Value.cls o.cls).Made i := (made.objects o.id o here).2

theorem Made.findMethod (made : s.Made i) {k : Class} (here : (Value.cls k).Made i) {name : String}
    {found : Method} (same : k.findMethod name = some found) : found.Made i name :=
  made_findMethod made.founded here same

theorem Made.class_unique (made : s.Made i) {k other : Class} (one : k ∈ i.classes)
    (two : other ∈ i.classes) (same : k.identity = other.identity) : k = other := by
  let Same := fun k other : Class => k.identity = other.identity → k = other
  have apart : i.classes.Pairwise Same :=
    made.identities.imp fun sooner same => absurd same (Nat.ne_of_lt sooner)
  have back : i.classes.Pairwise (flip Same) :=
    made.identities.imp fun sooner same => absurd same (Nat.ne_of_gt sooner)
  exact List.Pairwise.forall_of_forall_of_flip (fun _ _ _ => rfl) apart back one two same

theorem Made.congr {t : Store} (made : s.Made i) (scopes : t.scopes = s.scopes)
    (fields : t.fields = s.fields) (host : t.host.size = s.host.size) (kept : t.kept = s.kept)
    (identity : s.nextIdentity ≤ t.nextIdentity) : t.Made i := by
  obtain ⟨tScopes, tFields, _, tKept, _⟩ := t
  cases scopes
  cases fields
  cases kept
  exact { made with
    hosts := made.hosts.trans host.symm
    older := fun k here => Nat.lt_of_lt_of_le (made.older k here) identity }

theorem Made.keep (made : s.Made i) {values : List Value} (each : ∀ a ∈ values, a.Made i) :
    (s.keep values).Made i :=
  { made with kept := List.forall_mem_append.mpr ⟨each, made.kept⟩ }

theorem Made.define (made : s.Made i) (e : ScopeId) (name : String) {a : Value}
    (value : a.Made i) : (s.define e name a).Made i := by
  refine { made with
    sized := made.sized.trans (Forest.size_define s.scopes e name a).symm
    scopes := made.scopes.define e name a
    bound := fun query entry member => ?_ }
  rcases mem_define member with rfl | older
  · exact value
  · exact made.bound query entry older

theorem Made.openScope (made : s.Made i) {e : ScopeId} (there : e < i.scopes) :
    (s.openScope e).1.Made i.addScope := by
  have grown := i.extends_addScope
  refine { made with
    sized := ?_
    scopes := made.scopes.grow (made.sized ▸ there)
    founded := fun k here => (made.founded k here).later grown
    bound := fun query entry member => ?_
    fields := fun o entry member => (made.fields o entry member).later grown
    kept := fun a member => (made.kept a member).later grown }
  · exact (congrArg (· + 1) made.sized).trans (Forest.size_grow s.scopes (some e)).symm
  · rw [Store.openScope, Forest.bindings_grow] at member
    exact (made.bound query entry member).later grown

theorem Made.identify (made : s.Made i) : s.identify.1.Made i :=
  made.congr rfl rfl rfl rfl (Nat.le_succ _)

theorem Made.bind (made : s.Made i) {m : Method} {name : String} (method : m.Made i name)
    {a : Value} (value : a.Made i) :
    (s.bind m a).1.Made i.addScope ∧ (Value.closure (s.bind m a).2).Made i.addScope := by
  have opened := made.openScope method.scope
  refine ⟨(opened.define _ "this" (value.later i.extends_addScope)).identify, ?_, fun _ => ?_⟩
  · change s.scopes.scopes.size < i.scopes + 1
    exact made.sized ▸ Nat.lt_succ_self _
  · exact Nat.ne_of_gt made.scopes.inside

theorem Made.instantiate (made : s.Made i) {k : Class} (here : (Value.cls k).Made i) :
    (s.instantiate k).1.Made (i.addObject (s.instantiate k).2) ∧
      (Value.object (s.instantiate k).2).Made (i.addObject (s.instantiate k).2) := by
  have grown := i.extends_addObject (s.instantiate k).2
  have last : (i.objects ++ [(s.instantiate k).2])[s.fields.size]? = some (s.instantiate k).2 := by
    rw [← made.counted, List.getElem?_concat_length]
  refine ⟨{ made with
    counted := ?_
    objects := fun n o known => ?_
    founded := fun k here => (made.founded k here).later grown
    bound := fun query entry member => (made.bound query entry member).later grown
    fields := fun o entry member => (made.fields o entry (mem_instantiate member)).later grown
    kept := fun a member => (made.kept a member).later grown },
    last⟩
  · change (i.objects ++ [_]).length = (s.fields.push []).size
    rw [List.length_append, List.length_singleton, Array.size_push, made.counted]
  · rcases getElem?_concat known with old | ⟨rfl, rfl⟩
    · exact made.objects n o old
    · exact ⟨made.counted.symm, here⟩

theorem Made.setField (made : s.Made i) (o : Object) (name : String) {a : Value}
    (value : a.Made i) : (s.setField o name a).Made i := by
  refine { made with
    counted := made.counted.trans Array.size_modify.symm
    fields := fun query entry member => ?_ }
  rcases mem_setField member with rfl | older
  · exact value
  · exact made.fields query entry older

theorem Made.callHost (made : s.Made i) (f : Native) {arguments : List Value}
    (each : ∀ a ∈ arguments, a.Made i) : (s.callHost f arguments).1.Made i := by
  rcases callHost_cases f arguments with same | ⟨host, size, same⟩ <;> rw [same]
  · exact made
  · have counted : { s with host }.Made i := made.congr rfl rfl size rfl (Nat.le_refl _)
    exact counted.keep each

theorem Made.recollect (made : s.Made i) (choose : List Value → Nat) (links : List Link) :
    (s.recollect choose links).Made i := by
  refine recollect_of True.intro (fun o name a _ found => made.field found) (fun o => made.holds)
    (fun k base here extended => ?_) made.kept choose links
  exact ((made.founded k here).base base extended).1

theorem Made.addHost (made : s.Made i) (name : String) (arity : Nat) (function : HostFunction) :
    (s.addHost name arity function).1.Made (i.addNative (s.addHost name arity function).2) ∧
      (Value.native (s.addHost name arity function).2).Made
        (i.addNative (s.addHost name arity function).2) := by
  have grown := i.extends_addNative (s.addHost name arity function).2
  have last : (i.natives ++ [(s.addHost name arity function).2])[s.host.size]? =
      some (s.addHost name arity function).2 := by
    rw [← made.hosts, List.getElem?_concat_length]
  refine ⟨{ made with
    hosts := ?_
    natives := fun n f known => ?_
    founded := fun k here => (made.founded k here).later grown
    bound := fun query entry member => (made.bound query entry member).later grown
    fields := fun o entry member => (made.fields o entry member).later grown
    kept := fun a member => (made.kept a member).later grown }, last⟩
  · change (i.natives ++ [_]).length = (s.host.push _).size
    rw [List.length_append, List.length_singleton, Array.size_push, made.hosts]
  · rcases getElem?_concat known with old | ⟨rfl, rfl⟩
    · exact made.natives n f old
    · exact made.hosts.symm

theorem Made.addClass (made : s.Made i) {k : Class} (founded : k.Founded i)
    (identity : k.identity = s.nextIdentity) : s.identify.1.Made (i.addClass k) := by
  have grown := i.extends_addClass k
  have before := made.older
  refine { made with
    objects := fun n o known => ?_
    founded := fun other member => ?_
    older := fun other member => ?_
    identities := ?_
    bound := fun query entry member => (made.bound query entry member).later grown
    fields := fun o entry member => (made.fields o entry member).later grown
    kept := fun a member => (made.kept a member).later grown }
  · obtain ⟨place, known⟩ := made.objects n o known
    exact ⟨place, grown.classes.subset known⟩
  · rcases List.mem_append.mp member with old | new
    · exact (made.founded other old).later grown
    · cases List.mem_singleton.mp new
      exact founded.later grown
  · rcases List.mem_append.mp member with old | new
    · exact Nat.lt_succ_of_lt (before other old)
    · cases List.mem_singleton.mp new
      exact identity ▸ Nat.lt_succ_self _
  · refine List.pairwise_append.mpr ⟨made.identities, List.pairwise_singleton _ _, ?_⟩
    intro other old new member
    cases List.mem_singleton.mp member
    exact identity ▸ before other old

theorem made_initial : Store.initial.Made ⟨1, [], [], []⟩ := by
  refine ⟨rfl, ⟨Nat.one_pos, rfl, ?_⟩, rfl, ?_, rfl, ?_, ?_, ?_, .nil, ?_, ?_, ?_⟩
  · intro e inside inner
    exact absurd (Nat.lt_one_iff.mp inside) inner
  · intro n f absent
    cases absent
  · intro n o absent
    cases absent
  · exact fun _ absent => nomatch absent
  · exact fun _ absent => nomatch absent
  · intro e entry member
    cases e <;> cases member
  · intro o entry member
    cases member
  · exact fun _ absent => nomatch absent

end Store

end LoxMachine
