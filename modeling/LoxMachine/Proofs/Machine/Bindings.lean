import LoxMachine.Proofs.Machine.Arguments
import LoxMachine.Proofs.Machine.Lookups
import LoxMachine.Proofs.Machine.Phrases

namespace LoxMachine

open Static

theorem Table.get?_of_mem {α : Type} {t : Table α} (distinct : t.names.Nodup) {name : String}
    {a : α} (member : (name, a) ∈ t) : t.get? name = some a := by
  induction t with
  | nil => cases member
  | cons entry rest ih =>
    obtain ⟨other, b⟩ := entry
    obtain ⟨absent, distinct⟩ := List.nodup_cons.mp distinct
    rw [get?_cons]
    rcases List.mem_cons.mp member with same | later
    · cases same
      rw [beq_self_eq_true, if_pos rfl]
    · have differ : (name == other) = false := by
        apply beq_eq_false_iff_ne.mpr
        rintro rfl
        exact absent (List.mem_map.mpr ⟨(name, a), later, rfl⟩)
      rw [differ, if_neg Bool.false_ne_true]
      exact ih distinct later

namespace Machine

/-- By the next step the declaration of the name in the scope is completed with the value. -/
inductive Completes (c : Setting) (m : Machine) : ScopeId → String → Value → Prop
  | variable {id name} (control : m.control = .execute (.var id name none)) :
      Completes c m m.scope name.lexeme .nil
  | initialized {a name rest} (control : m.control = .value a)
      (frames : m.frames = .define name :: rest) : Completes c m m.scope name.lexeme a
  | function {decl} (control : m.control = .execute (.function decl)) :
      Completes c m m.scope decl.name.lexeme
        (.closure ⟨m.store.nextIdentity, decl, m.scope, false⟩)
  | plain {id name methods} (control : m.control = .execute (.classDecl id name none methods)) :
      Completes c m m.scope name.lexeme
        (.cls ⟨m.store.nextIdentity, name.lexeme, none, methodTable m.scope methods⟩)
  | derived {base superclass name methods rest} (control : m.control = .value (.cls base))
      (frames : m.frames = .heritage superclass name methods :: rest) :
      Completes c m m.scope name.lexeme
        (.cls ⟨m.store.nextIdentity, name.lexeme, some base,
          methodTable m.store.scopes.scopes.size methods⟩)
  | parameter {base f arguments name a} (calls : m.Calls base (.closure f) arguments)
      (room : base.depth < c.depthLimit)
      (bound : (name, a) ∈ (f.decl.params.map (·.lexeme)).zip arguments) :
      Completes c m base.store.scopes.scopes.size name a

variable {c : Setting} {m : Machine}

theorem get_define_self {s : Store} {e : ScopeId} (inside : e < s.scopes.scopes.size)
    (name : String) (a : Value) : (s.define e name a).scopes.get e name = .ok a :=
  (Forest.get_define _ _ _ _ _ a inside).trans (if_pos ⟨rfl, rfl⟩)

theorem begins_of_calls {base : Machine} {f : Closure} {arguments : List Value}
    (calls : m.Calls base (.closure f) arguments) (room : base.depth < c.depthLimit)
    (distinct : (f.decl.params.map (·.lexeme)).Nodup) : base.Begins (step c m) f arguments := by
  rw [step_of_calls calls]
  exact begins_of_enter room (length_of_calls calls) distinct

theorem Begins.names {base next : Machine} {f : Closure} {arguments : List Value}
    (begins : base.Begins next f arguments) :
    (next.store.scopes.bindings next.scope).names = f.decl.params.map (·.lexeme) := by
  rw [begins.bindings]
  refine List.map_fst_zip ?_
  rw [List.length_map, begins.count]

theorem get_of_completes (inside : m.scope < m.store.scopes.scopes.size)
    (distinct : ∀ base f arguments, m.Calls base (.closure f) arguments →
      (f.decl.params.map (·.lexeme)).Nodup)
    {e : ScopeId} {name : String} {a : Value} (completes : m.Completes c e name a) :
    (step c m).store.scopes.get e name = .ok a := by
  cases completes with
  | «variable» control | function control =>
    simp only [step, control]
    exact get_define_self inside _ _
  | initialized control frames =>
    simp only [step, control, frames]
    exact get_define_self inside _ _
  | @plain id name methods control =>
    simp only [step, control]
    let named := m.store.define m.scope name.lexeme .nil
    have here : m.scope < named.identify.1.scopes.scopes.size :=
      Nat.lt_of_lt_of_eq inside (Forest.size_define _ _ _ _).symm
    exact get_define_self here _ _
  | @derived base superclass name methods rest control frames =>
    simp only [step, control, frames]
    let named := m.store.define m.scope name.lexeme .nil
    let opened := named.openScope m.scope
    have size : named.scopes.scopes.size = m.store.scopes.scopes.size := Forest.size_define _ _ _ _
    have here : m.scope < (opened.1.define opened.2 "super" (.cls base)).scopes.scopes.size := by
      refine Nat.lt_of_lt_of_eq ?_ (Forest.size_define _ _ _ _).symm
      refine Nat.lt_of_lt_of_eq ?_ (Forest.size_grow _ _).symm
      exact Nat.lt_succ_of_lt (size ▸ inside)
    have same : opened.2 = m.store.scopes.scopes.size := size
    rw [← same]
    exact get_define_self (s := (opened.1.define opened.2 "super" (.cls base)).identify.1) here _ _
  | @parameter base f arguments name a calls room bound =>
    have differ := distinct _ _ _ calls
    have begins := begins_of_calls calls room differ
    have once : (Table.names ((step c m).store.scopes.bindings (step c m).scope)).Nodup := by
      rw [begins.names]
      exact differ
    rw [begins.bindings] at once
    rw [← begins.new, Forest.get, begins.bindings, Table.get?_of_mem once bound]

def Alters (P : ScopeId → String → Prop) (s t : Store) : Prop :=
  ∀ e name a, t.scopes.get e name = .ok a → s.scopes.get e name = .ok a ∨ P e name

variable {P : ScopeId → String → Prop} {s t u : Store}

theorem Alters.same (scopes : t.scopes = s.scopes) : Alters P s t := by
  intro e name a found
  rw [scopes] at found
  exact .inl found

theorem Alters.trans (first : Alters P s t) (second : Alters P t u) : Alters P s u := by
  intro e name a found
  rcases second e name a found with before | allowed
  · exact first e name a before
  · exact .inr allowed

theorem Alters.define {e : ScopeId} {name : String} (allowed : P e name) (a : Value) :
    Alters P s (s.define e name a) := by
  intro query other b found
  by_cases here : query = e ∧ other = name
  · obtain ⟨rfl, rfl⟩ := here
    exact .inr allowed
  · by_cases inside : e < s.scopes.scopes.size
    · rw [Store.define, Forest.get_define _ _ _ _ _ _ inside, if_neg here] at found
      exact .inl found
    · rw [Store.define, Forest.get, Forest.bindings_define, if_neg fun is => inside is.2] at found
      exact .inl found

theorem Alters.openScope (s : Store) (e : ScopeId) : Alters P s (s.openScope e).1 := by
  intro query name a found
  exact .inl ((Forest.get_grow _ _ _ _).symm.trans found)

theorem Alters.bind (allowed : ∀ e, P e "this") (s : Store) (method : Method) (receiver : Value) :
    Alters P s (s.bind method receiver).1 :=
  (Alters.openScope s method.scope).trans (.define (allowed _) receiver)

theorem Alters.bindParameters {e : ScopeId} {params : List Token} {arguments : List Value}
    (allowed : ∀ name a, (name, a) ∈ (params.map (·.lexeme)).zip arguments → P e name) (s : Store) :
    Alters P s (bindParameters s e params arguments) := by
  induction params generalizing s arguments with
  | nil => exact .same rfl
  | cons param rest ih =>
    cases arguments with
    | nil => exact .same rfl
    | cons a others =>
      have first : P e param.lexeme := allowed _ a List.mem_cons_self
      refine (Alters.define first a).trans (ih ?_ (s.define e param.lexeme a))
      exact fun name b member => allowed name b (List.mem_cons_of_mem _ member)

/-- What a step may bind anew: a declaration that is completed, a name that is assigned, a global
name, or one that no text declares. -/
def MayBind (c : Setting) (m : Machine) (e : ScopeId) (name : String) : Prop :=
  (∃ a, m.Completes c e name a) ∨ m.Assigns c e name ∨ e = Store.globals ∨ name = "this" ∨
    name = "super"

theorem store_giveResult (m : Machine) (result : Except Failure Value) :
    (m.giveResult result).store = m.store := by
  cases result <;> rfl

theorem store_giveBound (m : Machine) (result : Except ScopeError Value) :
    (m.giveBound result).store = m.store := by
  cases result <;> rfl

theorem store_lookUp (c : Setting) (m : Machine) (id : NodeId) (name : Token) :
    (lookUp c m id name).store = m.store := by
  unfold lookUp
  split
  · exact store_giveBound m _
  · split <;> rfl

theorem store_leaveCall (m : Machine) (scope : ScopeId) (initialized : Option ScopeId) (a : Value) :
    (m.leaveCall scope initialized a).store = m.store := by
  cases initialized with
  | none => rfl
  | some own => exact store_giveBound _ _

theorem alters_lookUpSuper (allowed : ∀ e, P e "this") (c : Setting) (m : Machine) (id : NodeId)
    (method : Token) : Alters P m.store (lookUpSuper c m id method).store := by
  unfold lookUpSuper
  repeat' split
  all_goals
    first
    | exact .same rfl
    | exact .bind allowed m.store _ _

theorem alters_readProperty (allowed : ∀ e, P e "this") (m : Machine) (name : Token) (a : Value) :
    Alters P m.store (m.readProperty name a).store := by
  unfold readProperty
  repeat' split
  all_goals
    first
    | exact .same rfl
    | exact .bind allowed m.store _ _

theorem alters_defineClass (m : Machine) (name : Token) (superclass : Option Class)
    (methods : List FunctionDecl) (own : P m.scope name.lexeme) (heritage : ∀ e, P e "super") :
    Alters P m.store (m.defineClass name superclass methods).store := by
  have named : Alters P m.store (m.store.define m.scope name.lexeme .nil) := .define own _
  cases superclass with
  | none => exact named.trans (.define own _)
  | some base =>
    have opened := named.trans (.openScope _ m.scope)
    exact (opened.trans (.define (heritage _) (.cls base))).trans (.define own _)

theorem alters_enter (m : Machine) (f : Closure) (arguments : List Value)
    (allowed : m.depth < c.depthLimit → ∀ name a,
      (name, a) ∈ (f.decl.params.map (·.lexeme)).zip arguments →
        P m.store.scopes.scopes.size name) :
    Alters P m.store (enter c m f arguments).store := by
  unfold enter
  split
  · exact .same rfl
  · rename_i room
    exact (Alters.openScope m.store f.scope).trans
      (.bindParameters (allowed (Nat.lt_of_not_le room)) _)

theorem alters_invoke {base : Machine} {target : Callable} {arguments : List Value}
    (calls : m.Calls base target arguments) (same : base.store = m.store) :
    Alters (m.MayBind c) m.store (invoke c base target arguments).store := by
  rw [← same]
  cases target with
  | closure f =>
    exact alters_enter base f arguments
      fun room name a bound => .inl ⟨a, .parameter calls room bound⟩
  | native f =>
    unfold invoke callHost
    have scopes : (base.store.callHost f arguments).1.scopes = base.store.scopes :=
      Store.scopes_callHost f arguments
    dsimp only
    split <;> exact .same scopes
  | cls k =>
    cases found : k.initializer with
    | none =>
      rw [invoke, instantiate, found]
      exact .same rfl
    | some method =>
      have inner := Calls.initializer calls found
      have made : Alters (m.MayBind c) base.store (base.initializing k method).1.store :=
        Alters.trans (t := (base.store.instantiate k).1) (.same rfl)
          (.bind (fun _ => .inr (.inr (.inr (.inl rfl)))) _ method _)
      rw [invoke, instantiate, found]
      exact made.trans (alters_enter (base.initializing k method).1 (base.initializing k method).2
        arguments fun room name a bound => .inl ⟨a, .parameter inner room bound⟩)

theorem alters_supply {base : Machine} {v : Value} {callee : Expr} {paren : Token}
    {given : List Value} {rest : List Expr}
    (supplies : m.Supplies base v callee paren given rest) :
    Alters (m.MayBind c) m.store (step c m).store := by
  have shape := base_of_supplies supplies
  have same : base.store = m.store := by rw [shape]
  have begun := step_of_supplies (c := c) supplies
  cases rest with
  | cons e rest =>
    rw [begun]
    exact .same (congrArg Store.scopes same)
  | nil =>
    rcases call_cases c base callee paren v given.reverse with
      ⟨_, failed⟩ | ⟨target, callable, right, called⟩
    · rw [begun, supply, failed]
      exact .same (congrArg Store.scopes same)
    · rw [begun, supply, called]
      exact alters_invoke (calls_of_supplies supplies callable right) same

theorem alters_assignTo (m : Machine) {id : NodeId} {name : Token} {a : Value}
    (own : ∀ d e, c.distances.lookup id = some d → m.store.scopes.ancestor m.scope d = .ok e →
      P e name.lexeme) (free : P Store.globals name.lexeme) :
    Alters P m.store (assignTo c m id name a).store := by
  unfold assignTo
  split
  · rename_i d distance
    split
    · rename_i e found
      exact .define (own d e distance found) a
    · exact .same rfl
  · split
    · exact .define free a
    · exact .same rfl

theorem alters_evaluate (allowed : ∀ e, P e "this") (c : Setting) (m : Machine) (e : Expr) :
    Alters P m.store (evaluate c m e).store := by
  cases e with
  | read use => exact .same (congrArg Store.scopes (store_lookUp c m _ _))
  | this id keyword => exact .same (congrArg Store.scopes (store_lookUp c m _ _))
  | super id keyword method => exact alters_lookUpSuper allowed c m id method
  | _ => exact .same rfl

theorem alters_execute {s : Stmt} (control : m.control = .execute s) :
    Alters (m.MayBind c) m.store (execute m s).store := by
  cases s with
  | var id name initializer =>
    cases initializer with
    | none => exact .define (.inl ⟨_, .variable control⟩) _
    | some e => exact .same rfl
  | block id body => exact .openScope _ _
  | function decl => exact .define (.inl ⟨_, .function control⟩) _
  | returns id keyword value => cases value <;> exact .same rfl
  | classDecl id name superclass methods =>
    cases superclass with
    | none =>
      exact alters_defineClass m name none methods (.inl ⟨_, .plain control⟩)
        fun _ => .inr (.inr (.inr (.inr rfl)))
    | some base => exact .same rfl
  | _ => exact .same rfl

theorem alters_resume {a : Value} {frame : Frame} {rest : List Frame}
    (control : m.control = .value a) (frames : m.frames = frame :: rest) :
    Alters (m.MayBind c) m.store (resume c { m with frames := rest } a frame).store := by
  have receiver : ∀ e, m.MayBind c e "this" := fun _ => .inr (.inr (.inr (.inl rfl)))
  have begun : step c m = resume c { m with frames := rest } a frame := by
    simp only [step, control, frames]
  cases frame with
  | assign id name =>
    exact alters_assignTo _
      (fun d e distance found => .inr (.inl (.intro control frames distance found)))
      (.inr (.inr (.inl rfl)))
  | operand _ | rightOperand _ _ _ _ =>
    exact .same (congrArg Store.scopes (store_giveResult _ _))
  | shortcut operator right =>
    rw [resume]
    split <;> exact .same rfl
  | callee callee paren arguments =>
    rw [← begun]
    exact alters_supply (.first control frames)
  | argument v callee paren given arguments =>
    rw [← begun]
    exact alters_supply (.next control frames)
  | property name => exact alters_readProperty receiver { m with frames := rest } name a
  | target name value => cases a <;> exact .same rfl
  | define name => exact .define (.inl ⟨_, .initialized control frames⟩) a
  | choose yes no =>
    cases no with
    | none | some s =>
      rw [resume]
      split <;> exact .same rfl
  | test condition body =>
    rw [resume]
    split <;> exact .same rfl
  | heritage superclass name methods =>
    cases a with
    | cls base =>
      exact alters_defineClass { m with frames := rest } name (some base) methods
        (.inl ⟨_, .derived control frames⟩) fun _ => .inr (.inr (.inr (.inr rfl)))
    | _ => exact .same rfl
  | _ => exact .same rfl

theorem alters_proceed (m : Machine) (frame : Frame) :
    Alters P m.store (proceed m frame).store := by
  cases frame with
  | sequence statements => cases statements <;> exact .same rfl
  | leaveCall scope initialized => exact .same (congrArg Store.scopes (store_leaveCall m _ _ _))
  | _ => exact .same rfl

/-- A step binds anew only what it may. -/
theorem alters_step (c : Setting) (m : Machine) :
    Alters (m.MayBind c) m.store (step c m).store := by
  have receiver : ∀ e, m.MayBind c e "this" := fun _ => .inr (.inr (.inr (.inl rfl)))
  cases control : m.control with
  | evaluate e =>
    simp only [step, control]
    exact alters_evaluate receiver c m e
  | execute s =>
    simp only [step, control]
    exact alters_execute control
  | value a =>
    cases frames : m.frames with
    | nil =>
      simp only [step, control, frames]
      exact .same rfl
    | cons frame rest =>
      have begun : step c m = resume c { m with frames := rest } a frame := by
        simp only [step, control, frames]
      rw [begun]
      exact alters_resume control frames
  | done =>
    cases frames : m.frames with
    | nil =>
      simp only [step, control, frames]
      exact .same rfl
    | cons frame rest =>
      have begun : step c m = proceed { m with frames := rest } frame := by
        simp only [step, control, frames]
      rw [begun]
      exact alters_proceed { m with frames := rest } frame
  | returning a =>
    cases frames : m.frames with
    | nil =>
      simp only [step, control, frames]
      exact .same rfl
    | cons frame rest =>
      simp only [step, control, frames]
      cases frame with
      | leaveCall scope initialized => exact .same (congrArg Store.scopes (store_leaveCall _ _ _ _))
      | _ => exact .same rfl
  | failing g =>
    cases frames : m.frames with
    | nil =>
      simp only [step, control, frames]
      exact .same rfl
    | cons frame rest =>
      simp only [step, control, frames]
      cases frame <;> exact .same rfl

end Machine

end LoxMachine
