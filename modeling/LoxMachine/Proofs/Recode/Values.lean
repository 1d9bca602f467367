import LoxMachine.Proofs.Value.Code
import LoxMachine.Proofs.Value.Host

namespace LoxMachine

variable (ϕ : Recoding)

theorem keepsSignature_recode : KeepsSignature (·.recode ϕ) where
  name := fun decl => decl.name_recode ϕ
  params := fun decl => by rw [FunctionDecl.params_recode, List.length_map]

def Callable.recode : Callable → Callable
  | .closure f => .closure (f.recode ϕ)
  | .native f => .native f
  | .cls c => .cls (c.recode ϕ)

theorem Class.recode_eq_mapCode : ∀ c : Class, c.recode ϕ = c.mapCode (·.recode ϕ)
  | ⟨_, _, none, _⟩ => rfl
  | ⟨_, _, some base, _⟩ => by
    rw [recode, mapCode, recode_eq_mapCode base]
    rfl

theorem Callable.recode_eq_mapCode (target : Callable) :
    target.recode ϕ = target.mapCode (·.recode ϕ) := by
  cases target with
  | closure | native => rfl
  | cls c => exact congrArg cls (c.recode_eq_mapCode ϕ)

theorem Value.recode_eq_mapCode (a : Value) : a.recode ϕ = a.mapCode (·.recode ϕ) := by
  cases a with
  | cls c => exact congrArg cls (c.recode_eq_mapCode ϕ)
  | object o => exact congrArg (fun c => object ⟨o.id, c⟩) (o.cls.recode_eq_mapCode ϕ)
  | nil | bool | number | string | closure | native => rfl

theorem Class.findMethod_recode (name : String) (c : Class) :
    (c.recode ϕ).findMethod name = (c.findMethod name).map (·.recode ϕ) := by
  rw [recode_eq_mapCode]
  exact c.findMethod_mapCode _ name

theorem Class.initializer_recode (c : Class) :
    (c.recode ϕ).initializer = c.initializer.map (·.recode ϕ) := findMethod_recode ϕ "init" c

theorem Callable.arity_recode (target : Callable) : (target.recode ϕ).arity = target.arity := by
  rw [recode_eq_mapCode]
  exact target.arity_mapCode (keepsSignature_recode ϕ)

namespace Value

theorem recode_toValue (l : Literal) : l.toValue.recode ϕ = l.toValue := by
  rw [recode_eq_mapCode, mapCode_toValue]

theorem text_recode (a : Value) : (a.recode ϕ).text = a.text := by
  rw [recode_eq_mapCode]
  exact a.text_mapCode (keepsSignature_recode ϕ)

theorem isTruthy_recode (a : Value) : (a.recode ϕ).isTruthy = a.isTruthy := by
  rw [recode_eq_mapCode, isTruthy_mapCode]

theorem isEqual_recode (a b : Value) : (a.recode ϕ).isEqual (b.recode ϕ) = a.isEqual b := by
  rw [recode_eq_mapCode, recode_eq_mapCode, isEqual_mapCode]

theorem callable_recode (a : Value) : (a.recode ϕ).callable? = a.callable?.map (·.recode ϕ) := by
  cases a <;> rfl

theorem view_recode (a : Value) : (a.recode ϕ).view = a.view := by
  rw [recode_eq_mapCode]
  exact a.view_mapCode (keepsSignature_recode ϕ)

end Value

/-- A reply that does not depend on the code of what the host was given. -/
def HostReply.Discreet : HostReply → Prop
  | .recalled choose _ =>
    ∀ values others : List Value, values.map Value.view = others.map Value.view →
      choose values = choose others
  | .literal _ | .argument _ | .failure _ _ _ => True

/-- A function of the host that does not look into the code of the functions it is given. -/
def HostFunction.Discreet (function : HostFunction) : Prop :=
  ∀ calls arguments others, arguments.map Value.view = others.map Value.view →
    function calls arguments = function calls others ∧ (function calls arguments).Discreet

def Store.Discreet (s : Store) : Prop :=
  ∀ (index : Nat) (entry : HostEntry), s.host[index]? = some entry → entry.function.Discreet

theorem Store.Discreet.callHost_snd {s : Store} (discreet : s.Discreet) (f : Native)
    (arguments : List Value) : (s.callHost f arguments).2.Discreet := by
  unfold Store.callHost
  split
  · rename_i entry found
    exact (discreet f.index entry found entry.calls arguments arguments rfl).2
  · exact True.intro

theorem Store.Discreet.of_functions {s t : Store} (discreet : s.Discreet)
    (same : t.host.map (·.function) = s.host.map (·.function)) : t.Discreet := by
  intro index later found
  obtain ⟨entry, known, equal⟩ := entry_of_functions same found
  exact equal ▸ discreet index entry known

theorem Store.Discreet.callHost_fst {s : Store} (discreet : s.Discreet) (f : Native)
    (arguments : List Value) : (s.callHost f arguments).1.Discreet :=
  discreet.of_functions (functions_callHost f arguments)

namespace Store

variable {code : FunctionDecl → FunctionDecl} {s t : Store}

theorem follow_mapCode (fields : ∀ o : Object, t.fieldsOf (o.mapCode code) =
      (s.fieldsOf o).recode id (·.mapCode code)) (a : Value) (link : Link) :
    t.follow (a.mapCode code) link = (s.follow a link).mapCode code := by
  cases link with
  | field name =>
    cases a with
    | object o =>
      change ((t.fieldsOf (o.mapCode code)).get? name).getD .nil =
        (((s.fieldsOf o).get? name).getD .nil).mapCode code
      rw [fields, Table.get?_recode_id]
      cases (s.fieldsOf o).get? name <;> rfl
    | _ => rfl
  | cls => cases a <;> rfl
  | superclass =>
    cases a with
    | cls c =>
      obtain ⟨identity, name, superclass, methods⟩ := c
      cases superclass <;> rfl
    | _ => rfl

theorem recollect_mapCode (keeps : KeepsSignature code)
    (fields : ∀ o : Object, t.fieldsOf (o.mapCode code) =
      (s.fieldsOf o).recode id (·.mapCode code))
    (kept : t.kept = s.kept.map (·.mapCode code)) {choose : List Value → Nat} {links : List Link}
    (discreet : (HostReply.recalled choose links).Discreet) :
    t.recollect choose links = (s.recollect choose links).mapCode code := by
  have views : t.kept.map Value.view = s.kept.map Value.view := by
    rw [kept, List.map_map]
    exact List.map_congr_left fun a _ => a.view_mapCode keeps
  have first : t.kept[choose t.kept]?.getD .nil =
      (s.kept[choose s.kept]?.getD .nil).mapCode code := by
    rw [discreet _ _ views, kept, List.getElem?_map]
    cases s.kept[choose s.kept]? <;> rfl
  unfold recollect
  rw [first]
  generalize s.kept[choose s.kept]?.getD .nil = a
  induction links generalizing a with
  | nil => rfl
  | cons link rest ih =>
    rw [List.foldl_cons, List.foldl_cons, follow_mapCode fields]
    exact ih discreet _

end Store

end LoxMachine
