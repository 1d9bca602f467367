import LoxMachine.Proofs.Reach.Beside
import LoxMachine.Proofs.Machine.Recorded

namespace LoxMachine

def Frame.leaving (e : ScopeId) : Frame → ScopeId
  | leaveBlock outer | leaveCall outer _ => outer
  | assign _ _ | operand _ | leftOperand _ _ _ | rightOperand _ _ _ _ | shortcut _ _
  | callee _ _ _ | argument _ _ _ _ _ | property _ | target _ _ | field _ _ | discard | print
  | define _ | choose _ _ | test _ _ | again _ _ | giveBack | heritage _ _ _ | sequence _
  | construct _ => e

/-- A frame that holds on to nothing outside of the region and goes on in a scope inside of it. -/
def Frame.Within (P : Cell → Prop) (e : ScopeId) : Frame → Prop
  | leaveCall _ initialized =>
    P (.scope e) ∧ ∀ receiver, initialized = some receiver → P (.scope receiver)
  | construct object => (Value.object object).Within P
  | rightOperand left _ _ _ => P (.scope e) ∧ left.Within P
  | argument called _ _ given _ => P (.scope e) ∧ called.Within P ∧ ∀ a ∈ given, a.Within P
  | field object _ => P (.scope e) ∧ (Value.object object).Within P
  | assign _ _ | operand _ | leftOperand _ _ _ | shortcut _ _ | callee _ _ _ | property _
  | target _ _ | discard | print | define _ | choose _ _ | test _ _ | again _ _ | giveBack
  | heritage _ _ _ | sequence _ | leaveBlock _ => P (.scope e)

def FramesWithin (P : Cell → Prop) : ScopeId → List Frame → Prop
  | _, [] => True
  | e, frame :: rest => frame.Within P e ∧ FramesWithin P (frame.leaving e) rest

theorem Frame.Within.inward {P : Cell → Prop} {e inner : ScopeId} {frame : Frame}
    (inside : P (.scope inner)) (within : frame.Within P e) : frame.Within P inner := by
  cases frame with
  | construct object => exact within
  | leaveCall _ _ | rightOperand _ _ _ _ | argument _ _ _ _ _ | field _ _ => exact ⟨inside, within.2⟩
  | _ => exact inside

theorem FramesWithin.inward {P : Cell → Prop} {e inner : ScopeId} {frames : List Frame}
    (inside : P (.scope inner)) (within : FramesWithin P e frames) : FramesWithin P inner frames := by
  induction frames generalizing e with
  | nil => exact True.intro
  | cons frame rest ih =>
    refine ⟨within.1.inward inside, ?_⟩
    -- behind a frame that leads elsewhere nothing depends on the current scope
    cases frame with
    | leaveBlock _ | leaveCall _ _ => exact within.2
    | _ => exact ih within.2

theorem FramesWithin.drop {P : Cell → Prop} {e : ScopeId} {frame : Frame} {rest : List Frame}
    (within : FramesWithin P e (frame :: rest)) : FramesWithin P e rest := by
  cases frame with
  | leaveBlock _ => exact within.2.inward within.1
  | leaveCall _ _ => exact within.2.inward within.1.1
  | _ => exact within.2

def Control.Within (P : Cell → Prop) (e : ScopeId) : Control → Prop
  | evaluate _ | execute _ => P (.scope e)
  | value a | returning a => a.Within P
  | done | failing _ => True

def Callable.value : Callable → Value
  | closure f => .closure f
  | native f => .native f
  | cls c => .cls c

namespace Machine

structure Held (P : Cell → Prop) (m : Machine) : Prop where
  store : m.store.Within P
  frames : FramesWithin P m.scope m.frames

structure Within (P : Cell → Prop) (m : Machine) : Prop extends m.Held P where
  control : m.control.Within P m.scope

def amid (m : Machine) (P : Cell → Prop) [DecidablePred P] (t : Store) (waiting : List Frame) :
    Machine :=
  { m with frames := m.frames ++ waiting, store := m.store.beside P t }

def Confined (P : Cell → Prop) [DecidablePred P] (m : Machine) (operation : Machine → Machine) :
    Prop :=
  ∀ t waiting,
    operation (m.amid P t waiting) = (operation m).amid P t waiting ∧ (operation m).Within P

variable {P : Cell → Prop} [DecidablePred P] {c : Setting} {m : Machine}

section Amid

variable (t : Store) (waiting : List Frame)

@[simp]
theorem store_amid : (m.amid P t waiting).store = m.store.beside P t := rfl

@[simp]
theorem scope_amid : (m.amid P t waiting).scope = m.scope := rfl

@[simp]
theorem depth_amid : (m.amid P t waiting).depth = m.depth := rfl

end Amid

theorem confined_go (held : m.Held P) {control : Control} (next : control.Within P m.scope) :
    Confined P m fun m => { m with control } :=
  fun _ _ => ⟨rfl, ⟨held.store, held.frames⟩, next⟩

theorem confined_still (held : m.Held P) (control : m.control.Within P m.scope) :
    Confined P m fun m => m :=
  fun _ _ => ⟨rfl, ⟨held.store, held.frames⟩, control⟩

theorem confined_give (held : m.Held P) {a : Value} (value : a.Within P) :
    Confined P m (·.give a) := confined_go held value

theorem confined_finish (held : m.Held P) : Confined P m finish := confined_go held True.intro

theorem confined_fail (held : m.Held P) (f : Failure) : Confined P m (·.fail f) :=
  confined_go held True.intro

theorem confined_complain (held : m.Held P) (t : Token) (complaint : Complaint) :
    Confined P m (·.complain t complaint) := confined_fail held _

theorem confined_evaluating (held : m.Held P) (here : P (.scope m.scope)) (e : Expr) {frame : Frame}
    (waits : frame.Within P m.scope) (stays : frame.leaving m.scope = m.scope) :
    Confined P m (·.evaluating e frame) :=
  fun _ _ => ⟨rfl, ⟨held.store, waits, stays.symm ▸ held.frames⟩, here⟩

theorem confined_giveBound (held : m.Held P) {result : Except ScopeError Value}
    (value : ∀ a, result = .ok a → a.Within P) : Confined P m (·.giveBound result) := by
  cases result with
  | ok a => exact confined_give held (value a rfl)
  | error e => exact confined_fail held _

theorem confined_giveResult (held : m.Held P) {result : Except Failure Value}
    (literal : ∀ a, result = .ok a → ∃ l : Literal, a = l.toValue) :
    Confined P m (·.giveResult result) := by
  cases result with
  | ok a =>
    obtain ⟨l, rfl⟩ := literal a rfl
    exact confined_give held (within_toValue l)
  | error f => exact confined_fail held f

theorem confined_store (held : m.Held P) (change : Store → Store)
    (within : (change m.store).Within P)
    (same : ∀ t, change (m.store.beside P t) = (change m.store).beside P t)
    {control : Control} (next : control.Within P m.scope) :
    Confined P m fun m => { m with control, store := change m.store } :=
  fun t _ => ⟨by simp only [store_amid, same t]; rfl, ⟨within, held.frames⟩, next⟩

theorem confined_define (held : m.Held P) (name : String) {e : ScopeId} (inside : P (.scope e))
    {a : Value} (value : a.Within P) {control : Control} (next : control.Within P m.scope) :
    Confined P m fun m => { m with control, store := m.store.define e name a } :=
  confined_store held (·.define e name a) (held.store.define e name value)
    (fun _ => Store.define_beside inside name a) next

theorem confined_lookUp (held : m.Held P) (here : P (.scope m.scope)) (id : NodeId) (name : Token) :
    Confined P m (lookUp c · id name) := by
  intro t waiting
  have globals := held.store.globals
  cases distance : c.distances.lookup id with
  | some d =>
    simp only [lookUp, distance, store_amid, scope_amid, Store.getAt_beside held.store d here]
    exact confined_giveBound held (fun a found => held.store.getAt here found) t waiting
  | none =>
    simp only [lookUp, distance, store_amid, Store.get_beside globals]
    cases found : m.store.scopes.get Store.globals name.lexeme with
    | ok a => exact confined_give held (held.store.get globals found) t waiting
    | error _ => exact confined_complain held name _ t waiting

theorem confined_assignTo (held : m.Held P) (here : P (.scope m.scope)) (id : NodeId) (name : Token)
    {a : Value} (value : a.Within P) : Confined P m (assignTo c · id name a) := by
  intro t waiting
  have globals := held.store.globals
  have assigned : ∀ e, P (.scope e) → Confined P m fun m =>
      { m with control := .value a, store := m.store.define e name.lexeme a } :=
    fun e inside => confined_define held name.lexeme inside value value
  cases distance : c.distances.lookup id with
  | some d =>
    simp only [assignTo, distance, store_amid, scope_amid,
      Store.ancestor_beside held.store d here]
    cases reached : m.store.scopes.ancestor m.scope d with
    | ok e => exact assigned e (held.store.ancestor here reached) t waiting
    | error e => exact confined_fail held _ t waiting
  | none =>
    simp only [assignTo, distance, store_amid, Store.contains_beside globals]
    by_cases bound : m.store.scopes.contains Store.globals name.lexeme = true
    · simp only [bound, ↓reduceIte]
      exact assigned Store.globals globals t waiting
    · simp only [bound]
      exact confined_complain held name _ t waiting

theorem confined_giveBoundMethod (held : m.Held P) {method : Method}
    (inside : P (.scope method.scope)) {receiver : Value} (value : receiver.Within P) :
    Confined P m (·.giveBoundMethod method receiver) := by
  intro t waiting
  simp only [giveBoundMethod, store_amid, Store.bind_beside held.store]
  constructor
  · rfl
  · exact ⟨⟨held.store.bind inside value, held.frames⟩, within_closure held.store.freshScope⟩

theorem confined_lookUpSuper (held : m.Held P) (here : P (.scope m.scope)) (id : NodeId)
    (method : Token) : Confined P m (lookUpSuper c · id method) := by
  intro t waiting
  cases distance : c.distances.lookup id with
  | none =>
    simp only [lookUpSuper, distance]
    exact confined_fail held _ t waiting
  | some d =>
    simp only [lookUpSuper, distance, store_amid, scope_amid, Store.getAt_beside held.store _ here]
    cases base : m.store.scopes.getAt m.scope d "super" with
    | error e => exact confined_fail held _ t waiting
    | ok a =>
      cases receiver : m.store.scopes.getAt m.scope (d - 1) "this" with
      | error e => exact confined_fail held _ t waiting
      | ok object =>
        cases a with
        | cls k =>
          cases found : k.findMethod method.lexeme with
          | none =>
            simp only [found]
            exact confined_complain held method _ t waiting
          | some inherited =>
            have value := held.store.getAt here receiver
            have inside := (held.store.getAt here base).method found
            simp only [found]
            exact confined_giveBoundMethod held inside value t waiting
        | _ => exact confined_fail held _ t waiting

theorem confined_evaluate (held : m.Held P) (here : P (.scope m.scope)) (e : Expr) :
    Confined P m (evaluate c · e) := by
  cases e with
  | literal id value => exact confined_give held (within_toValue value)
  | read use => exact confined_lookUp held here use.id use.name
  | this id keyword => exact confined_lookUp held here id keyword
  | super id keyword method => exact confined_lookUpSuper held here id method
  | grouping id inner =>
    have next : Control.Within P m.scope (.evaluate inner) := here
    exact confined_go held next
  | _ => exact confined_evaluating held here _ here rfl

/-- Begins a call of something that can be called, with any arguments. -/
def invoke (c : Setting) (m : Machine) (target : Callable) (arguments : List Value) : Machine :=
  match target with
  | .closure f => enter c m f arguments
  | .native f => m.callHost f arguments
  | .cls k => instantiate c m k arguments

theorem call_eq_invoke (callee : Expr) (paren : Token) (target : Callable)
    {arguments : List Value} (right : arguments.length = target.arity) :
    call c m callee paren target.value arguments = invoke c m target arguments := by
  cases target <;> simp [call, Callable.value, Value.callable?, right, invoke]

omit [DecidablePred P] in
theorem within_bindParameters {s : Store} (within : s.Within P) (e : ScopeId) (params : List Token)
    {arguments : List Value} (given : ∀ a ∈ arguments, a.Within P) :
    (bindParameters s e params arguments).Within P := by
  induction params generalizing s arguments with
  | nil => exact within
  | cons param rest ih =>
    cases arguments with
    | nil => exact within
    | cons a others =>
      apply ih (within.define e param.lexeme (given a List.mem_cons_self))
      exact fun b member => given b (List.mem_cons_of_mem _ member)

theorem bindParameters_beside {s t : Store} {e : ScopeId} (here : P (.scope e))
    (params : List Token) (arguments : List Value) :
    bindParameters (s.beside P t) e params arguments =
      (bindParameters s e params arguments).beside P t := by
  induction params generalizing s arguments with
  | nil => rfl
  | cons param rest ih =>
    cases arguments with
    | nil => rfl
    | cons a others =>
      simp only [bindParameters, Store.define_beside here]
      exact ih others

theorem confined_enter (held : m.Held P) {f : Closure} (inside : P (.scope f.scope))
    {arguments : List Value} (given : ∀ a ∈ arguments, a.Within P) :
    Confined P m (enter c · f arguments) := by
  intro t waiting
  by_cases deep : c.depthLimit ≤ m.depth
  · simp only [enter, depth_amid, deep, ↓reduceIte]
    exact confined_fail held _ t waiting
  · have fresh : P (.scope (m.store.openScope f.scope).2) := held.store.freshScope
    simp only [enter, depth_amid, deep, ↓reduceIte, store_amid, Store.openScope_beside held.store,
      bindParameters_beside fresh]
    constructor
    · rfl
    -- the frames of the caller are judged in its own scope, as they were before
    · refine ⟨⟨?_, fresh, ⟨fresh, ?_⟩, held.frames⟩, True.intro⟩
      · exact within_bindParameters (held.store.openScope inside) _ f.decl.params given
      · intro receiver initializes
        split at initializes
        · cases initializes
          exact inside
        · cases initializes

theorem confined_instantiate (held : m.Held P) {k : Class} (kind : (Value.cls k).Within P)
    {arguments : List Value} (given : ∀ a ∈ arguments, a.Within P) :
    Confined P m (instantiate c · k arguments) := by
  intro t waiting
  have made := held.store.instantiate k
  have object : (Value.object (m.store.instantiate k).2).Within P :=
    within_object held.store.freshObject kind
  cases initializer : k.initializer with
  | none =>
    simp only [instantiate, initializer, store_amid, Store.instantiate_beside held.store]
    exact ⟨rfl, ⟨made, held.frames⟩, object⟩
  | some method =>
    have inside := kind.method initializer
    simp only [instantiate, initializer, store_amid, Store.instantiate_beside held.store,
      Store.bind_beside made]
    exact confined_enter (P := P)
      (m := { m with
        store := ((m.store.instantiate k).1.bind method (.object (m.store.instantiate k).2)).1
        frames := .construct (m.store.instantiate k).2 :: m.frames })
      ⟨made.bind inside object, object, held.frames⟩ made.freshScope given t waiting

theorem confined_callHost (held : m.Held P) {f : Native} (called : (Value.native f).Within P)
    {arguments : List Value} (given : ∀ a ∈ arguments, a.Within P) :
    Confined P m (·.callHost f arguments) := by
  intro t waiting
  have here : P (.host f.index) := called _ (.native f)
  have counted : Held P { m with store := (m.store.callHost f arguments).1 } :=
    ⟨held.store.callHost f given, held.frames⟩
  simp only [callHost, store_amid, Store.callHost_beside here]
  cases reply : (m.store.callHost f arguments).2 with
  | literal value => exact confined_give counted (within_toValue value) t waiting
  | failure text line file => exact confined_fail counted _ t waiting
  | argument index =>
    apply confined_give counted _ t waiting
    cases taken : arguments[index]? with
    | none => exact within_nil
    | some a => exact given a (List.mem_of_getElem? taken)
  | recalled choose links =>
    have kept := held.store.kept_of_recalled here given reply
    simp only [Store.recollect_beside counted.store kept]
    exact confined_give counted (counted.store.recollect kept choose links) t waiting

theorem confined_invoke (held : m.Held P) {target : Callable} (called : target.value.Within P)
    {arguments : List Value} (given : ∀ a ∈ arguments, a.Within P) :
    Confined P m (invoke c · target arguments) := by
  cases target with
  | closure f => exact confined_enter held called.scope given
  | native f => exact confined_callHost held called given
  | cls k => exact confined_instantiate held called given

theorem confined_call (held : m.Held P) (callee : Expr) (paren : Token) {a : Value}
    (called : a.Within P) {arguments : List Value} (given : ∀ a ∈ arguments, a.Within P) :
    Confined P m (call c · callee paren a arguments) := by
  have checked : ∀ target : Callable, target.value.Within P →
      Confined P m (call c · callee paren target.value arguments) := by
    intro target called
    by_cases right : arguments.length = target.arity
    · simp only [call_eq_invoke callee paren target right]
      exact confined_invoke held called given
    · cases target <;> simp only [call, Callable.value, Value.callable?, ne_eq, right,
        not_false_eq_true, ↓reduceIte] <;> exact confined_complain held paren _
  cases a with
  | closure f => exact checked (.closure f) called
  | native f => exact checked (.native f) called
  | cls k => exact checked (.cls k) called
  | _ => exact confined_complain held paren _

theorem confined_supply (held : m.Held P) (here : P (.scope m.scope)) (callee : Expr)
    (paren : Token) {a : Value} (called : a.Within P) {given : List Value}
    (supplied : ∀ b ∈ given, b.Within P) (rest : List Expr) :
    Confined P m (supply c · a callee paren given rest) := by
  cases rest with
  | nil =>
    apply confined_call held callee paren called
    exact fun b member => supplied b (List.mem_reverse.mp member)
  | cons e rest => exact confined_evaluating held here e ⟨here, called, supplied⟩ rfl

theorem confined_readProperty (held : m.Held P) (name : Token) {a : Value} (value : a.Within P) :
    Confined P m (·.readProperty name a) := by
  intro t waiting
  cases a with
  | object o =>
    have here : P (.object o.id) := value _ (.object o)
    simp only [readProperty, store_amid, Store.fieldsOf_beside here]
    cases held_field : (m.store.fieldsOf o).get? name.lexeme with
    | some b => exact confined_give held (held.store.field here held_field) t waiting
    | none =>
      cases found : o.cls.findMethod name.lexeme with
      | some method =>
        exact confined_giveBoundMethod held (value.cls.method found) value t waiting
      | none => exact confined_complain held name _ t waiting
  | _ => exact confined_complain held name _ t waiting

theorem confined_defineFunction (held : m.Held P) (here : P (.scope m.scope)) (decl : FunctionDecl) :
    Confined P m (·.defineFunction decl) := by
  intro t waiting
  simp only [defineFunction, store_amid, scope_amid, Store.identify_beside,
    Store.define_beside here]
  constructor
  · rfl
  · exact ⟨⟨held.store.identify.define _ _ (within_closure here), held.frames⟩, True.intro⟩

omit [DecidablePred P] in
theorem within_newClass (identity : Identity) (name : String) {superclass : Option Class}
    {around : ScopeId} (here : P (.scope around)) (methods : List FunctionDecl)
    (inherited : ∀ base, superclass = some base → (Value.cls base).Within P) :
    (Value.cls ⟨identity, name, superclass, methodTable around methods⟩).Within P :=
  within_cls (fun _ member => (mem_methodTable member).2.symm ▸ here) inherited

theorem confined_defineClass (held : m.Held P) (here : P (.scope m.scope)) (name : Token)
    {superclass : Option Class} (methods : List FunctionDecl)
    (inherited : ∀ base, superclass = some base → (Value.cls base).Within P) :
    Confined P m (·.defineClass name superclass methods) := by
  intro t waiting
  have named := held.store.define m.scope name.lexeme within_nil
  cases superclass with
  | none =>
    have made := within_newClass m.store.nextIdentity name.lexeme here methods inherited
    simp only [defineClass, store_amid, scope_amid, Store.define_beside here,
      Store.identify_beside]
    constructor
    · rfl
    · exact ⟨⟨named.identify.define _ _ made, held.frames⟩, True.intro⟩
  | some base =>
    have around : P (.scope ((m.store.define m.scope name.lexeme .nil).openScope m.scope).2) :=
      named.freshScope
    have made := within_newClass m.store.nextIdentity name.lexeme around methods inherited
    have heir := inherited base rfl
    simp only [defineClass, store_amid, scope_amid, Store.define_beside here,
      Store.openScope_beside named, Store.define_beside around, Store.identify_beside]
    constructor
    · rfl
    · exact ⟨⟨((named.openScope here).define _ "super" heir).identify.define _ _ made,
        held.frames⟩, True.intro⟩

theorem confined_execute (held : m.Held P) (here : P (.scope m.scope)) (s : Stmt) :
    Confined P m (·.execute s) := by
  have ended : Control.done.Within P m.scope := True.intro
  cases s with
  | var id name initializer =>
    cases initializer with
    | none => exact confined_define held name.lexeme here within_nil ended
    | some e => exact confined_evaluating held here e here rfl
  | block id body =>
    intro t waiting
    have fresh : P (.scope (m.store.openScope m.scope).2) := held.store.freshScope
    simp only [execute, store_amid, scope_amid, Store.openScope_beside held.store]
    constructor
    · rfl
    · exact ⟨⟨held.store.openScope here, fresh, fresh, held.frames⟩, True.intro⟩
  | function decl => exact confined_defineFunction held here decl
  | returns id keyword value =>
    cases value with
    | none =>
      have next : Control.Within P m.scope (.returning .nil) := within_nil
      exact confined_go held next
    | some e => exact confined_evaluating held here e here rfl
  | classDecl id name superclass methods =>
    cases superclass with
    | none =>
      change Confined P m (·.defineClass name none methods)
      apply confined_defineClass held here name methods
      intro base extended
      cases extended
    | some use => exact confined_evaluating held here (.read use) here rfl
  | _ => exact confined_evaluating held here _ here rfl

theorem confined_leaveCall {scope : ScopeId} {initialized : Option ScopeId} {a : Value}
    (store : m.store.Within P) (frames : FramesWithin P scope m.frames)
    (receiver : ∀ e, initialized = some e → P (.scope e)) (value : a.Within P) :
    Confined P m (·.leaveCall scope initialized a) := by
  have held : Held P { m with scope, depth := m.depth - 1 } := ⟨store, frames⟩
  intro t waiting
  cases initialized with
  | none => exact confined_give held value t waiting
  | some e =>
    have here := receiver e rfl
    simp only [leaveCall, store_amid, Store.get_beside here]
    exact confined_giveBound held (fun a found => store.get here found) t waiting

theorem confined_resume (held : m.Held P) (control : m.control.Within P m.scope) {a : Value}
    (value : a.Within P) {frame : Frame} (waits : frame.Within P m.scope) :
    Confined P m (resume c · a frame) := by
  have ended : Control.done.Within P m.scope := True.intro
  have given : (Control.value a).Within P m.scope := value
  cases frame with
  | assign id name => exact confined_assignTo held waits id name value
  | operand operator => exact confined_giveResult held fun _ => literal_of_applyPrefix
  | leftOperand left operator right =>
    exact confined_evaluating held waits right ⟨waits, value⟩ rfl
  | rightOperand leftValue left operator right =>
    exact confined_giveResult held fun _ => literal_of_applyBinary
  | shortcut operator right =>
    intro t waiting
    simp only [resume]
    split
    · exact confined_give held value t waiting
    · have next : (Control.evaluate right).Within P m.scope := waits
      exact confined_go held next t waiting
  | callee callee paren arguments =>
    apply confined_supply held waits callee paren value
    intro b member
    cases member
  | argument called callee paren given rest =>
    apply confined_supply held waits.1 callee paren waits.2.1
    intro b member
    rcases List.mem_cons.mp member with rfl | earlier
    · exact value
    · exact waits.2.2 b earlier
  | property name => exact confined_readProperty held name value
  | target name e =>
    cases a with
    | object o => exact confined_evaluating held waits e ⟨waits, value⟩ rfl
    | _ => exact confined_complain held name _
  | field o name =>
    have inside : P (.object o.id) := waits.2 _ (.object o)
    exact confined_store held (·.setField o name.lexeme a)
      (held.store.setField o name.lexeme value)
      (fun _ => Store.setField_beside inside name.lexeme a) given
  | discard => exact confined_finish held
  | print => exact fun _ _ => ⟨rfl, ⟨held.store, held.frames⟩, True.intro⟩
  | define name =>
    exact confined_define held name.lexeme waits value ended
  | choose yes no =>
    intro t waiting
    simp only [resume]
    split
    · have next : (Control.execute yes).Within P m.scope := waits
      exact confined_go held next t waiting
    · cases no with
      | some s =>
        have next : (Control.execute s).Within P m.scope := waits
        exact confined_go held next t waiting
      | none => exact confined_finish held t waiting
  | test condition body =>
    intro t waiting
    simp only [resume]
    split
    · exact ⟨rfl, ⟨held.store, waits, held.frames⟩, waits⟩
    · exact confined_finish held t waiting
  | giveBack =>
    have next : (Control.returning a).Within P m.scope := value
    exact confined_go held next
  | heritage superclass name methods =>
    cases a with
    | cls base =>
      change Confined P m (·.defineClass name (some base) methods)
      apply confined_defineClass held waits name methods
      intro other same
      cases same
      exact value
    | _ => exact confined_complain held superclass _
  | construct o =>
    have object : (Value.object o).Within P := waits
    exact confined_give held object
  -- these wait for a statement and only give way to a value
  | again _ _ | sequence _ | leaveBlock _ | leaveCall _ _ =>
    exact confined_still held control

theorem confined_proceed (held : m.Held P) (done : m.control = .done) {frame : Frame}
    (waits : frame.Within P m.scope) (frames : FramesWithin P (frame.leaving m.scope) m.frames) :
    Confined P m (·.proceed frame) := by
  have control : m.control.Within P m.scope := done ▸ True.intro
  cases frame with
  | again condition body => exact confined_evaluating held waits condition waits rfl
  | sequence rest =>
    cases rest with
    | nil => exact confined_still held control
    | cons s rest => exact fun _ _ => ⟨rfl, ⟨held.store, waits, held.frames⟩, waits⟩
  | leaveBlock scope =>
    exact fun _ _ => ⟨rfl, ⟨held.store, frames⟩, done ▸ True.intro⟩
  | leaveCall scope initialized => exact confined_leaveCall held.store frames waits.2 within_nil
  | _ => exact confined_still held control

theorem confined_passReturn (held : m.Held P) {a : Value} (control : m.control = .returning a)
    (value : a.Within P) {frame : Frame} (waits : frame.Within P m.scope)
    (frames : FramesWithin P (frame.leaving m.scope) m.frames) :
    Confined P m (·.passReturn a frame) := by
  have returning : ∀ e, m.control.Within P e := fun _ => control ▸ value
  cases frame with
  | leaveBlock scope => exact fun _ _ => ⟨rfl, ⟨held.store, frames⟩, returning scope⟩
  | leaveCall scope initialized => exact confined_leaveCall held.store frames waits.2 value
  | _ => exact confined_still held (returning m.scope)

theorem confined_passFailure (held : m.Held P) {f : Failure} (control : m.control = .failing f)
    {frame : Frame} (frames : FramesWithin P (frame.leaving m.scope) m.frames) :
    Confined P m (·.passFailure frame) := by
  have failing : ∀ e, m.control.Within P e := fun _ => control ▸ True.intro
  cases frame with
  | leaveBlock scope => exact fun _ _ => ⟨rfl, ⟨held.store, frames⟩, failing scope⟩
  | leaveCall scope initialized => exact fun _ _ => ⟨rfl, ⟨held.store, frames⟩, failing scope⟩
  | _ => exact confined_still held (failing m.scope)

/-- A step from inside of a region stays in it. -/
theorem confined_step (within : m.Within P) (going : m.isOver = false) :
    Confined P m (step c) := by
  obtain ⟨control, frames, scope, depth, store, printed, classes⟩ := m
  obtain ⟨⟨stored, waits⟩, here⟩ := within
  intro t waiting
  cases control with
  | evaluate e => exact confined_evaluate ⟨stored, waits⟩ here e t waiting
  | execute s => exact confined_execute ⟨stored, waits⟩ here s t waiting
  | value a =>
    cases frames with
    | nil => cases going
    | cons frame rest =>
      exact confined_resume (m := ⟨.value a, rest, scope, depth, store, printed, classes⟩)
        ⟨stored, waits.drop⟩ here here waits.1 t waiting
  | done =>
    cases frames with
    | nil => cases going
    | cons frame rest =>
      exact confined_proceed (m := ⟨.done, rest, scope, depth, store, printed, classes⟩)
        ⟨stored, waits.drop⟩ rfl waits.1 waits.2 t waiting
  | returning a =>
    cases frames with
    | nil => cases going
    | cons frame rest =>
      exact confined_passReturn (m := ⟨.returning a, rest, scope, depth, store, printed, classes⟩)
        ⟨stored, waits.drop⟩ rfl here waits.1 waits.2 t waiting
  | failing f =>
    cases frames with
    | nil => cases going
    | cons frame rest =>
      exact confined_passFailure (m := ⟨.failing f, rest, scope, depth, store, printed, classes⟩)
        ⟨stored, waits.drop⟩ rfl waits.2 t waiting

theorem isOver_amid (going : m.isOver = false) (t : Store) (waiting : List Frame) :
    (m.amid P t waiting).isOver = false := by
  obtain ⟨control, frames, scope, depth, store, printed, classes⟩ := m
  cases frames with
  | nil => cases control <;> first | rfl | cases going
  | cons frame rest => cases control <;> rfl

theorem within_run (within : m.Within P) (n : Nat) : (run c n m).Within P := by
  induction n generalizing m with
  | zero => exact within
  | succ n ih =>
    unfold run
    cases ended : m.isOver with
    | true => exact within
    | false => exact ih (confined_step within ended m.store []).2

theorem run_amid (within : m.Within P) (t : Store) (waiting : List Frame) (n : Nat) :
    ∃ k ≤ n, run c k (m.amid P t waiting) = (run c n m).amid P t waiting := by
  induction n generalizing m with
  | zero => exact ⟨0, Nat.le_refl 0, rfl⟩
  | succ n ih =>
    cases ended : m.isOver with
    | true => exact ⟨0, Nat.zero_le _, by simp only [run, ended, ↓reduceIte]⟩
    | false =>
      obtain ⟨same, next⟩ := confined_step (c := c) within ended t waiting
      obtain ⟨k, early, later⟩ := ih next
      refine ⟨k + 1, Nat.succ_le_succ early, ?_⟩
      simp only [run, ended, isOver_amid ended, same, Bool.false_eq_true, ↓reduceIte]
      exact later

theorem run_beside (within : m.Within P) (t : Store) (n : Nat) :
    run c n { m with store := m.store.beside P t } =
      { run c n m with store := (run c n m).store.beside P t } := by
  induction n generalizing m with
  | zero => rfl
  | succ n ih =>
    cases ended : m.isOver with
    | true =>
      have still : isOver { m with store := m.store.beside P t } = true := ended
      simp only [run, ended, still, ↓reduceIte]
    | false =>
      have going : isOver { m with store := m.store.beside P t } = false := ended
      obtain ⟨same, next⟩ := confined_step (c := c) within ended t []
      simp only [amid, List.append_nil] at same
      simp only [run, ended, going, same, Bool.false_eq_true, ↓reduceIte]
      exact ih next

end Machine

end LoxMachine
