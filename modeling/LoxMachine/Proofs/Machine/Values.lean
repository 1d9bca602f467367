import LoxMachine.Proofs.Session.Shape

namespace LoxMachine

variable {P : Value → Prop}

structure Store.Only (P : Value → Prop) (s : Store) : Prop where
  bound : ∀ e, ∀ entry ∈ s.scopes.bindings e, P entry.2
  fields : ∀ o, ∀ entry ∈ s.fieldsOf o, P entry.2
  kept : ∀ a ∈ s.kept, P a

/-- The property admits literals, the object that can be made next, and the function that can be
made next if there are `n` identities then; with an object it admits the class, and with a class the
one that it extends. -/
structure Store.Admits (P : Value → Prop) (n : Identity) (s : Store) : Prop where
  literal : ∀ l : Literal, P l.toValue
  function : ∀ f : Closure, f.identity = s.nextIdentity → s.nextIdentity < n → P (.closure f)
  object : ∀ k, P (.cls k) → P (.object ⟨s.fields.size, k⟩)
  kind : ∀ o : Object, P (.object o) → P (.cls o.cls)
  base : ∀ k base : Class, P (.cls k) → k.superclass = some base → P (.cls base)

namespace Store

variable {s : Store}

theorem Only.get (only : s.Only P) {e : ScopeId} {name : String} {a : Value}
    (found : s.scopes.get e name = .ok a) : P a := by
  unfold Forest.get at found
  split at found
  · rename_i b here
    cases found
    exact only.bound e _ (Table.mem_of_get? here)
  · cases found

theorem Only.getAt (only : s.Only P) {e : ScopeId} {d : Int} {name : String} {a : Value}
    (found : s.scopes.getAt e d name = .ok a) : P a := by
  unfold Forest.getAt at found
  cases reached : s.scopes.ancestor e d with
  | error _ =>
    rw [reached] at found
    cases found
  | ok target =>
    rw [reached] at found
    exact only.get found

theorem Only.field (only : s.Only P) {o : Object} {name : String} {a : Value}
    (found : (s.fieldsOf o).get? name = some a) : P a :=
  only.fields o _ (Table.mem_of_get? found)

theorem Only.define (only : s.Only P) (e : ScopeId) (name : String) {a : Value} (value : P a) :
    (s.define e name a).Only P := by
  refine { only with bound := fun query entry member => ?_ }
  rcases mem_define member with rfl | older
  · exact value
  · exact only.bound query entry older

theorem Only.openScope (only : s.Only P) (e : ScopeId) : (s.openScope e).1.Only P := by
  refine { only with bound := fun query entry member => ?_ }
  rw [Store.openScope, Forest.bindings_grow] at member
  exact only.bound query entry member

theorem Only.identify (only : s.Only P) : s.identify.1.Only P := ⟨only.bound, only.fields, only.kept⟩

theorem Only.bind (only : s.Only P) (method : Method) {a : Value} (value : P a) :
    (s.bind method a).1.Only P :=
  ((only.openScope method.scope).define _ "this" value).identify

theorem Only.instantiate (only : s.Only P) (k : Class) : (s.instantiate k).1.Only P :=
  { only with fields := fun o entry member => only.fields o entry (mem_instantiate member) }

theorem Only.setField (only : s.Only P) (o : Object) (name : String) {a : Value} (value : P a) :
    (s.setField o name a).Only P := by
  refine { only with fields := fun query entry member => ?_ }
  rcases mem_setField member with rfl | older
  · exact value
  · exact only.fields query entry older

theorem Only.keep (only : s.Only P) {values : List Value} (each : ∀ a ∈ values, P a) :
    (s.keep values).Only P :=
  { only with kept := List.forall_mem_append.mpr ⟨each, only.kept⟩ }

theorem Only.callHost (only : s.Only P) (f : Native) {arguments : List Value}
    (each : ∀ a ∈ arguments, P a) : (s.callHost f arguments).1.Only P := by
  rcases callHost_cases f arguments with same | ⟨host, -, same⟩ <;> rw [same]
  · exact only
  · exact ⟨only.bound, only.fields, (only.keep each).kept⟩

theorem Only.recollect {n : Identity} (only : s.Only P) (admits : s.Admits P n)
    (choose : List Value → Nat) (links : List Link) : P (s.recollect choose links) :=
  recollect_of (admits.literal .nil) (fun _ _ _ _ found => only.field found) admits.kind admits.base
    only.kept choose links

theorem Admits.callHost {n : Identity} (admits : s.Admits P n) (f : Native)
    (arguments : List Value) : (s.callHost f arguments).1.Admits P n := by
  obtain ⟨literal, function, object, kind, base⟩ := admits
  rw [← nextIdentity_callHost f arguments] at function
  rw [← fields_callHost f arguments] at object
  exact ⟨literal, function, object, kind, base⟩

end Store

namespace Machine

structure Only (P : Value → Prop) (m : Machine) : Prop where
  store : m.store.Only P
  frames : ∀ frame ∈ m.frames, ∀ a ∈ frame.values, P a
  control : ∀ a ∈ m.control.values, P a

/-- The next step makes the class, with these methods. -/
inductive Makes (m : Machine) : Class → List FunctionDecl → Prop
  | alone {id name methods} (control : m.control = .execute (.classDecl id name none methods)) :
      Makes m ⟨m.store.nextIdentity, name.lexeme, none, methodTable m.scope methods⟩ methods
  | extending {base superclass name methods waiting} (control : m.control = .value (.cls base))
      (frames : m.frames = .heritage superclass name methods :: waiting) :
      Makes m ⟨m.store.nextIdentity, name.lexeme, some base,
        methodTable m.store.scopes.scopes.size methods⟩ methods

variable {c : Setting} {m : Machine} {n : Identity}

theorem Only.go (only : m.Only P) {store : Store} (changed : store.Only P) {a : Value}
    (value : P a) : Only P { m with control := .value a, store } :=
  ⟨changed, only.frames, List.forall_mem_singleton.mpr value⟩

theorem Only.turn (only : m.Only P) {store : Store} (changed : store.Only P) {control : Control}
    (none : control.values = []) {classes : List (String × Nat)} :
    Only P { m with control, store, classes } :=
  ⟨changed, only.frames, none ▸ List.forall_mem_nil _⟩

theorem Only.give (only : m.Only P) {a : Value} (value : P a) : (m.give a).Only P :=
  only.go only.store value

theorem Only.fail (only : m.Only P) (f : Failure) : (m.fail f).Only P :=
  only.turn only.store rfl

theorem Only.evaluating (only : m.Only P) (e : Expr) {frame : Frame}
    (each : ∀ a ∈ frame.values, P a) : (m.evaluating e frame).Only P :=
  ⟨only.store, List.forall_mem_cons.mpr ⟨each, only.frames⟩, List.forall_mem_nil _⟩

theorem Only.giveBound (only : m.Only P) {result : Except ScopeError Value}
    (known : ∀ a, result = .ok a → P a) : (m.giveBound result).Only P := by
  cases result with
  | ok a => exact only.give (known a rfl)
  | error e => exact only.fail _

theorem Only.giveResult (only : m.Only P) (admits : m.store.Admits P n)
    {result : Except Failure Value}
    (literal : ∀ a, result = .ok a → ∃ l : Literal, a = l.toValue) :
    (m.giveResult result).Only P := by
  cases result with
  | ok a =>
    obtain ⟨l, rfl⟩ := literal a rfl
    exact only.give (admits.literal l)
  | error f => exact only.fail f

theorem Only.lookUp (only : m.Only P) (id : NodeId) (name : Token) :
    (lookUp c m id name).Only P := by
  unfold Machine.lookUp
  split
  · exact only.giveBound fun a found => only.store.getAt found
  · split
    · rename_i a found
      exact only.give (only.store.get found)
    · exact only.fail _

theorem Only.assignTo (only : m.Only P) (id : NodeId) (name : Token) {a : Value} (value : P a) :
    (assignTo c m id name a).Only P := by
  unfold Machine.assignTo
  repeat' split
  all_goals first
    | exact only.go (only.store.define _ _ value) value
    | exact only.fail _

theorem Only.giveBoundMethod (only : m.Only P) (admits : m.store.Admits P n) (method : Method)
    {a : Value} (value : P a) (within : (m.giveBoundMethod method a).store.nextIdentity ≤ n) :
    (m.giveBoundMethod method a).Only P :=
  only.go (only.store.bind method value) (admits.function _ rfl within)

theorem Only.lookUpSuper (only : m.Only P) (admits : m.store.Admits P n) (id : NodeId)
    (method : Token) :
    (lookUpSuper c m id method).store.nextIdentity ≤ n → (lookUpSuper c m id method).Only P := by
  unfold Machine.lookUpSuper
  split
  · exact fun _ => only.fail _
  · split
    · exact fun _ => only.fail _
    · split
      · exact fun _ => only.fail _
      · rename_i receiver found
        split
        · split
          · exact only.giveBoundMethod admits _ (only.store.getAt found)
          · exact fun _ => only.fail _
        · exact fun _ => only.fail _

theorem Only.readProperty (only : m.Only P) (admits : m.store.Admits P n) (name : Token)
    {a : Value} (value : P a) :
    (m.readProperty name a).store.nextIdentity ≤ n → (m.readProperty name a).Only P := by
  unfold Machine.readProperty
  split
  · split
    · rename_i b found
      exact fun _ => only.give (only.store.field found)
    · split
      · exact only.giveBoundMethod admits _ value
      · exact fun _ => only.fail _
  · exact fun _ => only.fail _

theorem only_bindParameters {s : Store} {e : ScopeId} {params : List Token}
    {arguments : List Value} (only : s.Only P) (each : ∀ a ∈ arguments, P a) :
    (bindParameters s e params arguments).Only P := by
  induction params generalizing s arguments with
  | nil => exact only
  | cons param rest ih =>
    cases arguments with
    | nil => exact only
    | cons a others =>
      obtain ⟨first, further⟩ := List.forall_mem_cons.mp each
      exact ih (only.define e param.lexeme first) further

theorem Only.enter (only : m.Only P) (f : Closure) {arguments : List Value}
    (each : ∀ a ∈ arguments, P a) : (enter c m f arguments).Only P := by
  unfold Machine.enter
  split
  · exact only.fail _
  · refine ⟨only_bindParameters (only.store.openScope f.scope) each, ?_, List.forall_mem_nil _⟩
    exact List.forall_mem_cons.mpr ⟨List.forall_mem_nil _,
      List.forall_mem_cons.mpr ⟨List.forall_mem_nil _, only.frames⟩⟩

theorem Only.instantiate (only : m.Only P) (admits : m.store.Admits P n) {k : Class}
    {arguments : List Value} (value : P (.cls k)) (each : ∀ a ∈ arguments, P a) :
    (instantiate c m k arguments).Only P := by
  have made := admits.object k value
  unfold Machine.instantiate
  cases k.initializer with
  | none => exact only.go (only.store.instantiate k) made
  | some method =>
    have waiting : Only P
        { m with
          store := ((m.store.instantiate k).1.bind method (.object (m.store.instantiate k).2)).1
          frames := .construct (m.store.instantiate k).2 :: m.frames } :=
      ⟨(only.store.instantiate k).bind method made,
        List.forall_mem_cons.mpr ⟨List.forall_mem_singleton.mpr made, only.frames⟩, only.control⟩
    exact waiting.enter _ each

theorem Only.callHost (only : m.Only P) (admits : m.store.Admits P n) (f : Native)
    {arguments : List Value} (each : ∀ a ∈ arguments, P a) : (callHost m f arguments).Only P := by
  have called : Only P { m with store := (m.store.callHost f arguments).1 } :=
    ⟨only.store.callHost f each, only.frames, only.control⟩
  rcases callHost_replies (m := m) f admits.literal each
    (called.store.recollect (admits.callHost f arguments)) with
    ⟨a, value, same⟩ | ⟨text, line, file, same⟩ <;> rw [same]
  · exact called.give value
  · exact called.fail _

theorem Only.call (only : m.Only P) (admits : m.store.Admits P n) (callee : Expr) (paren : Token)
    {v : Value} {arguments : List Value} (value : P v) (each : ∀ a ∈ arguments, P a) :
    (call c m callee paren v arguments).Only P := by
  unfold Machine.call
  cases v with
  | closure f =>
    dsimp only [Value.callable?]
    split
    · exact only.fail _
    · exact only.enter f each
  | native f =>
    dsimp only [Value.callable?]
    split
    · exact only.fail _
    · exact only.callHost admits f each
  | cls k =>
    dsimp only [Value.callable?]
    split
    · exact only.fail _
    · exact only.instantiate admits value each
  | nil | bool _ | number _ | string _ | object _ => exact only.fail _

theorem Only.supply (only : m.Only P) (admits : m.store.Admits P n) (callee : Expr)
    (paren : Token) {v : Value} {given : List Value} (arguments : List Expr) (value : P v)
    (each : ∀ a ∈ given, P a) : (supply c m v callee paren given arguments).Only P := by
  cases arguments with
  | nil =>
    have each := fun a member => each a (List.mem_reverse.mp member)
    exact only.call admits callee paren value each
  | cons e rest => exact only.evaluating e (List.forall_mem_cons.mpr ⟨value, each⟩)

structure Admits (P : Value → Prop) (n : Identity) (m : Machine) : Prop where
  store : m.store.Admits P n
  cls : ∀ k methods, m.Makes k methods → (∀ base, k.superclass = some base → P (.cls base)) →
    P (.cls k)

theorem Only.defineClass (only : m.Only P) (admits : m.store.Admits P n) (name : Token)
    {superclass : Option Class} {methods : List FunctionDecl}
    (inherited : ∀ base, superclass = some base → P (.cls base))
    (made : P (.cls ⟨m.store.nextIdentity, name.lexeme, superclass,
      methodTable (if superclass.isSome then m.store.scopes.scopes.size else m.scope) methods⟩)) :
    (m.defineClass name superclass methods).Only P := by
  have named := only.store.define m.scope name.lexeme (admits.literal .nil)
  cases superclass with
  | none => exact only.turn (named.identify.define _ _ made) rfl
  | some base =>
    have size : (m.store.define m.scope name.lexeme .nil).scopes.scopes.size =
        m.store.scopes.scopes.size := Forest.size_define _ _ _ _
    have opened := (named.openScope m.scope).define
      (m.store.define m.scope name.lexeme .nil).scopes.scopes.size "super" (inherited base rfl)
    refine only.turn (opened.identify.define _ _ ?_) rfl
    rw [size]
    exact made

theorem Only.evaluate (only : m.Only P) (admits : m.store.Admits P n) (e : Expr)
    (within : (evaluate c m e).store.nextIdentity ≤ n) : (evaluate c m e).Only P := by
  cases e with
  | literal id value => exact only.give (admits.literal value)
  | read use => exact only.lookUp use.id use.name
  | this id keyword => exact only.lookUp id keyword
  | super id keyword method => exact only.lookUpSuper admits id method within
  | grouping id inner => exact only.turn only.store rfl
  | assign | unary | binary | logical | call | get | set =>
    exact only.evaluating _ (List.forall_mem_nil _)

theorem Only.execute (only : m.Only P) (admits : m.Admits P n) {s : Stmt}
    (control : m.control = .execute s) (within : (execute m s).store.nextIdentity ≤ n) :
    (execute m s).Only P := by
  cases s with
  | expression id e | print id e => exact only.evaluating e (List.forall_mem_nil _)
  | var id name initializer =>
    cases initializer with
    | none => exact only.turn (only.store.define _ _ (admits.store.literal .nil)) rfl
    | some e => exact only.evaluating e (List.forall_mem_nil _)
  | block id body =>
    refine ⟨only.store.openScope m.scope, ?_, List.forall_mem_nil _⟩
    exact List.forall_mem_cons.mpr ⟨List.forall_mem_nil _,
      List.forall_mem_cons.mpr ⟨List.forall_mem_nil _, only.frames⟩⟩
  | branch id condition yes no => exact only.evaluating condition (List.forall_mem_nil _)
  | loop id condition body => exact only.evaluating condition (List.forall_mem_nil _)
  | function decl =>
    exact only.turn (only.store.identify.define _ _ (admits.store.function _ rfl within)) rfl
  | returns id keyword value =>
    cases value with
    | none =>
      exact ⟨only.store, only.frames, List.forall_mem_singleton.mpr (admits.store.literal .nil)⟩
    | some e => exact only.evaluating e (List.forall_mem_nil _)
  | classDecl id name superclass methods =>
    cases superclass with
    | none =>
      have orphan : ∀ base, (none : Option Class) = some base → P (.cls base) :=
        fun _ absent => nomatch absent
      exact only.defineClass admits.store name orphan (admits.cls _ _ (.alone control) orphan)
    | some use => exact only.evaluating (.read use) (List.forall_mem_nil _)

theorem Only.leaveCall (only : m.Only P) (scope : ScopeId) (initialized : Option ScopeId)
    {a : Value} (value : P a) : (m.leaveCall scope initialized a).Only P := by
  have left : Only P { m with scope, depth := m.depth - 1 } :=
    ⟨only.store, only.frames, only.control⟩
  cases initialized with
  | none => exact left.give value
  | some own => exact left.giveBound fun b found => only.store.get found

theorem Only.resume (only : m.Only P) (admits : m.store.Admits P n) {a : Value} {frame : Frame}
    (value : P a) (waits : ∀ b ∈ frame.values, P b)
    (made : ∀ base superclass name methods, a = .cls base →
      frame = .heritage superclass name methods → P (.cls ⟨m.store.nextIdentity, name.lexeme,
        some base, methodTable m.store.scopes.scopes.size methods⟩))
    (within : (resume c m a frame).store.nextIdentity ≤ n) : (resume c m a frame).Only P := by
  have turned : ∀ {control : Control} {frames : List Frame} {printed : List String},
      control.values = [] → (∀ frame ∈ frames, ∀ a ∈ frame.values, P a) →
      Only P { m with control, frames, printed } :=
    fun none framed => ⟨only.store, framed, none ▸ List.forall_mem_nil _⟩
  cases frame with
  | assign id name => exact only.assignTo id name value
  | operand operator => exact only.giveResult admits fun _ => literal_of_applyPrefix
  | leftOperand left operator right =>
    exact only.evaluating right (List.forall_mem_singleton.mpr value)
  | rightOperand leftValue left operator right =>
    exact only.giveResult admits fun _ => literal_of_applyBinary
  | shortcut operator right =>
    simp only [Machine.resume]
    split
    · exact only.give value
    · exact turned rfl only.frames
  | callee callee paren arguments =>
    exact only.supply admits callee paren arguments value (List.forall_mem_nil _)
  | argument calleeValue callee paren given rest =>
    obtain ⟨first, further⟩ := List.forall_mem_cons.mp waits
    exact only.supply admits callee paren rest first (List.forall_mem_cons.mpr ⟨value, further⟩)
  | property name => exact only.readProperty admits name value within
  | target name right =>
    cases a with
    | object o => exact only.evaluating right (List.forall_mem_singleton.mpr value)
    | _ => exact only.fail _
  | field o name => exact only.go (only.store.setField o name.lexeme value) value
  | discard => exact turned rfl only.frames
  | print => exact turned rfl only.frames
  | define name => exact only.turn (only.store.define m.scope name.lexeme value) rfl
  | choose yes no =>
    simp only [Machine.resume]
    split
    · exact turned rfl only.frames
    · split <;> exact turned rfl only.frames
  | test condition body =>
    simp only [Machine.resume]
    split
    · exact turned rfl (List.forall_mem_cons.mpr ⟨List.forall_mem_nil _, only.frames⟩)
    · exact turned rfl only.frames
  | giveBack => exact ⟨only.store, only.frames, List.forall_mem_singleton.mpr value⟩
  | heritage superclass name methods =>
    cases a with
    | cls base =>
      have inherited : ∀ other, some base = some other → P (.cls other) := by
        rintro other ⟨⟩
        exact value
      exact only.defineClass admits name inherited (made base superclass name methods rfl rfl)
    | _ => exact only.fail _
  | construct o => exact only.give (waits _ (List.mem_singleton_self _))
  | again | sequence | leaveBlock | leaveCall => exact only

theorem Only.proceed (only : m.Only P) (admits : m.store.Admits P n) (frame : Frame) :
    (proceed m frame).Only P := by
  cases frame with
  | again condition body => exact only.evaluating condition (List.forall_mem_nil _)
  | sequence rest =>
    cases rest with
    | nil => exact only
    | cons s rest =>
      exact ⟨only.store, List.forall_mem_cons.mpr ⟨List.forall_mem_nil _, only.frames⟩,
        List.forall_mem_nil _⟩
  | leaveBlock scope => exact ⟨only.store, only.frames, only.control⟩
  | leaveCall scope initialized => exact only.leaveCall scope initialized (admits.literal .nil)
  | _ => exact only

theorem Only.passReturn (only : m.Only P) {a : Value} (frame : Frame) (value : P a) :
    (passReturn m a frame).Only P := by
  cases frame with
  | leaveBlock scope => exact ⟨only.store, only.frames, only.control⟩
  | leaveCall scope initialized => exact only.leaveCall scope initialized value
  | _ => exact only

theorem Only.passFailure (only : m.Only P) (frame : Frame) : (passFailure m frame).Only P := by
  cases frame with
  | leaveBlock scope | leaveCall scope initialized =>
    exact ⟨only.store, only.frames, only.control⟩
  | _ => exact only

/-- A step brings in no values that the property does not admit. -/
theorem Only.step (only : m.Only P) (admits : m.Admits P (step c m).store.nextIdentity) :
    (step c m).Only P := by
  have made := admits.cls
  obtain ⟨control, frames, scope, depth, store, printed, classes⟩ := m
  have hand := only.control
  have taken : ∀ {frame rest}, frames = frame :: rest → (∀ a ∈ frame.values, P a) ∧
      Only P ⟨control, rest, scope, depth, store, printed, classes⟩ := by
    rintro frame rest rfl
    obtain ⟨first, others⟩ := List.forall_mem_cons.mp only.frames
    exact ⟨first, only.store, others, hand⟩
  cases control with
  | evaluate e => exact only.evaluate admits.store e (Nat.le_refl _)
  | execute s => exact only.execute admits rfl (Nat.le_refl _)
  | value a =>
    have value := hand a (List.mem_singleton_self a)
    cases frames with
    | nil => exact only
    | cons frame rest =>
      refine (taken rfl).2.resume admits.store value (taken rfl).1 ?_ (Nat.le_refl _)
      rintro base superclass name methods rfl rfl
      refine made _ methods (.extending rfl rfl) ?_
      rintro other ⟨⟩
      exact value
  | done =>
    cases frames with
    | nil => exact only
    | cons frame rest => exact (taken rfl).2.proceed admits.store frame
  | returning a =>
    cases frames with
    | nil => exact only
    | cons frame rest => exact (taken rfl).2.passReturn frame (hand a (List.mem_singleton_self a))
  | failing f =>
    cases frames with
    | nil => exact only
    | cons frame rest => exact (taken rfl).2.passFailure frame

theorem Only.imp {Q : Value → Prop} (only : m.Only P) (further : ∀ a, P a → Q a) : m.Only Q :=
  ⟨⟨fun e entry member => further _ (only.store.bound e entry member),
      fun o entry member => further _ (only.store.fields o entry member),
      fun a member => further a (only.store.kept a member)⟩,
    fun frame member a value => further a (only.frames frame member a value),
    fun a value => further a (only.control a value)⟩

end Machine

end LoxMachine
