import LoxMachine.Proofs.Program.Renamed
import LoxMachine.Proofs.Recode.Values
import LoxMachine.Proofs.Scope.Mirror

namespace LoxMachine

section Renamed

variable (f : NodeId → NodeId)

theorem keepsSignature_rename : KeepsSignature (·.rename f) where
  name := fun decl => congrArg Token.lexeme (decl.name_rename f)
  params := fun decl => congrArg List.length (decl.params_rename f)

abbrev Method.rename (m : Method) : Method := m.mapCode (·.rename f)

abbrev Closure.rename (g : Closure) : Closure := g.mapCode (·.rename f)

abbrev Class.rename (c : Class) : Class := c.mapCode (·.rename f)

abbrev Object.rename (o : Object) : Object := o.mapCode (·.rename f)

abbrev Callable.rename (target : Callable) : Callable := target.mapCode (·.rename f)

abbrev Value.rename (a : Value) : Value := a.mapCode (·.rename f)

def Table.rename (t : Table Value) : Table Value := t.recode id (·.rename f)

namespace Forest

def rename (t : Forest Value) : Forest Value :=
  ⟨t.scopes.map fun s => ⟨s.enclosing, s.bindings.rename f⟩⟩

variable (t : Forest Value)

theorem bindings_rename (e : ScopeId) : (t.rename f).bindings e = (t.bindings e).rename f := by
  simp only [rename, bindings, Array.getElem?_map]
  cases t.scopes[e]? <;> rfl

theorem enclosing_rename (e : ScopeId) : (t.rename f).enclosing e = t.enclosing e := by
  simp only [rename, enclosing, Array.getElem?_map]
  cases t.scopes[e]? <;> rfl

theorem ancestor_rename (e : ScopeId) (d : Int) : (t.rename f).ancestor e d = t.ancestor e d := by
  rw [ancestor, outward_congr (t.enclosing_rename f)]
  rfl

theorem contains_rename (e : ScopeId) (name : String) :
    (t.rename f).contains e name = t.contains e name := by
  rw [contains, bindings_rename, Table.contains, Table.rename, Table.get?_recode_id, contains,
    Table.contains, Option.isSome_map]

theorem get_rename (e : ScopeId) (name : String) :
    (t.rename f).get e name = (t.get e name).map (·.rename f) := by
  rw [get, bindings_rename, Table.rename, Table.get?_recode_id, get]
  cases (t.bindings e).get? name <;> rfl

theorem getAt_rename (e : ScopeId) (d : Int) (name : String) :
    (t.rename f).getAt e d name = (t.getAt e d name).map (·.rename f) := by
  rw [getAt, ancestor_rename, getAt]
  cases t.ancestor e d with
  | error e => rfl
  | ok target => exact t.get_rename f target name

theorem define_rename (e : ScopeId) (name : String) (a : Value) :
    (t.rename f).define e name (a.rename f) = (t.define e name a).rename f := by
  unfold rename define
  congr 1
  apply Array.ext_getElem?
  intro query
  simp only [Array.getElem?_map, Array.getElem?_modify]
  split
  · cases t.scopes[query]? with
    | none => rfl
    | some s => simp only [Option.map_some, Table.rename, Table.put_recode_id]
  · rfl

theorem grow_rename (around : Option ScopeId) :
    (t.rename f).grow around = ((t.grow around).1.rename f, (t.grow around).2) := by
  simp only [grow, rename, Array.map_push, Array.size_map]
  rfl

end Forest

namespace Store

def rename (s : Store) : Store :=
  { s with
    scopes := s.scopes.rename f
    fields := s.fields.map (·.rename f)
    kept := s.kept.map (·.rename f) }

variable (s : Store)

theorem define_rename (e : ScopeId) (name : String) (a : Value) :
    (s.rename f).define e name (a.rename f) = (s.define e name a).rename f := by
  simp only [define, rename, Forest.define_rename]

theorem openScope_rename (e : ScopeId) :
    (s.rename f).openScope e = ((s.openScope e).1.rename f, (s.openScope e).2) := by
  simp only [openScope, rename, Forest.grow_rename]

theorem identify_rename : (s.rename f).identify = (s.identify.1.rename f, s.identify.2) := rfl

theorem instantiate_rename (c : Class) :
    (s.rename f).instantiate (c.rename f) =
      ((s.instantiate c).1.rename f, (s.instantiate c).2.rename f) := by
  simp only [instantiate, rename, Object.mapCode, Array.map_push, Array.size_map]
  rfl

theorem fieldsOf_rename (o : Object) :
    (s.rename f).fieldsOf (o.rename f) = (s.fieldsOf o).rename f := by
  simp only [fieldsOf, rename, Object.mapCode, Array.getElem?_map]
  cases s.fields[o.id]? <;> rfl

theorem setField_rename (o : Object) (name : String) (a : Value) :
    (s.rename f).setField (o.rename f) name (a.rename f) = (s.setField o name a).rename f := by
  simp only [setField, rename, Object.mapCode]
  congr 1
  apply Array.ext_getElem?
  intro i
  simp only [Array.getElem?_modify, Array.getElem?_map]
  split
  · cases s.fields[i]? with
    | none => rfl
    | some table => simp only [Option.map_some, Table.rename, Table.put_recode_id]
  · rfl

theorem bind_rename (m : Method) (receiver : Value) :
    (s.rename f).bind (m.rename f) (receiver.rename f) =
      ((s.bind m receiver).1.rename f, (s.bind m receiver).2.rename f) := by
  simp only [bind, Method.mapCode, openScope_rename, define_rename, identify_rename,
    Closure.mapCode]

theorem addHost_rename (name : String) (arity : Nat) (function : HostFunction) :
    (s.rename f).addHost name arity function =
      ((s.addHost name arity function).1.rename f, (s.addHost name arity function).2) := rfl

variable {f s}

theorem Discreet.callHost_rename (discreet : s.Discreet) (g : Native) (arguments : List Value) :
    (s.rename f).callHost g (arguments.map (·.rename f)) =
      ((s.callHost g arguments).1.rename f, (s.callHost g arguments).2) := by
  have views : arguments.map Value.view = (arguments.map (·.rename f)).map Value.view := by
    rw [List.map_map]
    exact List.map_congr_left fun a _ => (a.view_mapCode (keepsSignature_rename f)).symm
  unfold Store.callHost
  simp only [rename]
  cases found : s.host[g.index]? with
  | none => rfl
  | some entry =>
    simp only [List.map_append]
    rw [(discreet g.index entry found entry.calls _ _ views).1]

theorem recollect_rename {choose : List Value → Nat} {links : List Link}
    (discreet : (HostReply.recalled choose links).Discreet) :
    (s.rename f).recollect choose links = (s.recollect choose links).rename f :=
  recollect_mapCode (keepsSignature_rename f) (s.fieldsOf_rename f) rfl discreet

end Store

end Renamed

end LoxMachine
