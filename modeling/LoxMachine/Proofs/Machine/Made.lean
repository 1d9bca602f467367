import LoxMachine.Proofs.Value.Made
import LoxMachine.Proofs.Machine.Recorded

namespace LoxMachine

/-- A frame whose values were made and whose scope is there. -/
def Frame.Made (i : Inventory) : Frame → Prop
  | argument calleeValue _ _ given _ => calleeValue.Made i ∧ ∀ a ∈ given, a.Made i
  | rightOperand left _ _ _ => left.Made i
  | field object _ | construct object => (Value.object object).Made i
  | leaveBlock scope => scope < i.scopes
  | leaveCall scope initialized =>
    scope < i.scopes ∧ ∀ own, initialized = some own → own < i.scopes
  | assign _ _ | operand _ | leftOperand _ _ _ | shortcut _ _ | callee _ _ _ | property _
  | target _ _ | discard | print | define _ | choose _ _ | test _ _ | again _ _ | giveBack
  | heritage _ _ _ | sequence _ => True

def Control.Made (i : Inventory) : Control → Prop
  | value a | returning a => a.Made i
  | evaluate _ | execute _ | done | failing _ => True

theorem Frame.Made.later {i j : Inventory} (grown : i.Extends j) {frame : Frame}
    (made : frame.Made i) : frame.Made j := by
  cases frame with
  | argument calleeValue callee paren given rest =>
    exact ⟨made.1.later grown, fun a member => (made.2 a member).later grown⟩
  | rightOperand left _ _ _ => exact Value.Made.later grown made
  | field object _ | construct object =>
    exact Value.Made.later grown (a := .object object) made
  | leaveBlock _ => exact Nat.lt_of_lt_of_le made grown.scopes
  | leaveCall _ _ =>
    exact ⟨Nat.lt_of_lt_of_le made.1 grown.scopes,
      fun own same => Nat.lt_of_lt_of_le (made.2 own same) grown.scopes⟩
  | assign _ _ | operand _ | leftOperand _ _ _ | shortcut _ _ | callee _ _ _ | property _
  | target _ _ | discard | print | define _ | choose _ _ | test _ _ | again _ _ | giveBack
  | heritage _ _ _ | sequence _ => exact True.intro

theorem Control.Made.later {i j : Inventory} (grown : i.Extends j) {control : Control}
    (made : control.Made i) : control.Made j := by
  cases control with
  | value _ | returning _ => exact Value.Made.later grown made
  | evaluate _ | execute _ | done | failing _ => exact True.intro

namespace Machine

structure Made (i : Inventory) (m : Machine) : Prop where
  store : m.store.Made i
  scope : m.scope < i.scopes
  frames : ∀ frame ∈ m.frames, frame.Made i
  control : m.control.Made i

def Making (i : Inventory) (m : Machine) : Prop := ∃ j, i.Extends j ∧ m.Made j

variable {i : Inventory} {c : Setting} {m : Machine}

theorem Made.making (made : m.Made i) : m.Making i := ⟨i, .refl i, made⟩

theorem Making.before {j : Inventory} (grown : i.Extends j) (making : m.Making j) :
    m.Making i := by
  obtain ⟨k, further, made⟩ := making
  exact ⟨k, grown.trans further, made⟩

theorem Made.go {j : Inventory} (made : m.Made i) (grown : i.Extends j) {store : Store}
    (changed : store.Made j) (control : Control) (next : control.Made j) :
    Made j { m with control, store } :=
  ⟨changed, Nat.lt_of_lt_of_le made.scope grown.scopes,
    fun frame member => (made.frames frame member).later grown, next⟩

theorem Made.turn (made : m.Made i) (control : Control) (next : control.Made i) :
    Made i { m with control } := made.go (.refl i) made.store control next

theorem Made.give (made : m.Made i) {a : Value} (value : a.Made i) : (m.give a).Made i :=
  made.turn (.value a) value

theorem Made.fail (made : m.Made i) (f : Failure) : (m.fail f).Made i :=
  made.turn (.failing f) True.intro

theorem Made.evaluating (made : m.Made i) (e : Expr) {frame : Frame} (waits : frame.Made i) :
    (m.evaluating e frame).Made i :=
  ⟨made.store, made.scope, List.forall_mem_cons.mpr ⟨waits, made.frames⟩, True.intro⟩

theorem Made.awaiting (made : m.Made i) (e : Expr) {frame : Frame} (waits : frame.Made i) :
    (m.evaluating e frame).Making i := (made.evaluating e waits).making

theorem Made.giveBound (made : m.Made i) {result : Except ScopeError Value}
    (known : ∀ a, result = .ok a → a.Made i) : (m.giveBound result).Made i := by
  cases result with
  | ok a => exact made.give (known a rfl)
  | error e => exact made.fail _

theorem Made.settle {j : Inventory} (made : m.Made i) (grown : i.Extends j) {store : Store}
    (changed : store.Made j) {classes : List (String × Nat)} :
    Made j { m with control := .done, store, classes } :=
  ⟨changed, Nat.lt_of_lt_of_le made.scope grown.scopes,
    fun frame member => (made.frames frame member).later grown, True.intro⟩

theorem Made.giveResult (made : m.Made i) {result : Except Failure Value}
    (literal : ∀ a, result = .ok a → ∃ l : Literal, a = l.toValue) :
    (m.giveResult result).Made i := by
  cases result with
  | ok a =>
    obtain ⟨l, rfl⟩ := literal a rfl
    exact made.give (made_toValue i l)
  | error f => exact made.fail f

theorem Made.lookUp (made : m.Made i) (id : NodeId) (name : Token) :
    (lookUp c m id name).Made i := by
  unfold Machine.lookUp
  split
  · exact made.giveBound fun a found => made.store.getAt found
  · split
    · rename_i a found
      exact made.give (made.store.get found)
    · exact made.fail _

theorem Made.assignTo (made : m.Made i) (id : NodeId) (name : Token) {a : Value}
    (value : a.Made i) : (assignTo c m id name a).Made i := by
  have assigned : ∀ e, Made i
      { m with control := .value a, store := m.store.define e name.lexeme a } :=
    fun e => made.go (.refl i) (made.store.define e name.lexeme value) (.value a) value
  unfold Machine.assignTo
  split
  · split
    · exact assigned _
    · exact made.fail _
  · split
    · exact assigned _
    · exact made.fail _

theorem Made.giveBoundMethod (made : m.Made i) {method : Method} {name : String}
    (found : method.Made i name) {a : Value} (value : a.Made i) :
    (m.giveBoundMethod method a).Making i := by
  obtain ⟨store, closure⟩ := made.store.bind found value
  exact ⟨_, i.extends_addScope, made.go i.extends_addScope store (.value _) closure⟩

theorem Made.lookUpSuper (made : m.Made i) (id : NodeId) (method : Token) :
    (lookUpSuper c m id method).Making i := by
  unfold Machine.lookUpSuper
  split
  · exact (made.fail _).making
  · split
    · exact (made.fail _).making
    · rename_i base base_found
      split
      · exact (made.fail _).making
      · rename_i receiver found
        split
        · rename_i own
          split
          · rename_i method_found
            have known : (Value.cls own).Made i := made.store.getAt base_found
            exact made.giveBoundMethod (made.store.findMethod known method_found)
              (made.store.getAt found)
          · exact (made.fail _).making
        · exact (made.fail _).making

theorem made_bindParameters {s : Store} {e : ScopeId} {params : List Token}
    {arguments : List Value} (made : s.Made i) (each : ∀ a ∈ arguments, a.Made i) :
    (bindParameters s e params arguments).Made i := by
  induction params generalizing s arguments with
  | nil => exact made
  | cons param rest ih =>
    cases arguments with
    | nil => exact made
    | cons a others =>
      obtain ⟨first, further⟩ := List.forall_mem_cons.mp each
      exact ih (made.define e param.lexeme first) further

theorem Made.enter (made : m.Made i) {f : Closure} {arguments : List Value} (callee : f.Made i)
    (each : ∀ a ∈ arguments, a.Made i) : (enter c m f arguments).Making i := by
  unfold Machine.enter
  split
  · exact (made.fail _).making
  · have grown := i.extends_addScope
    have opened := made.store.openScope callee.scope
    refine ⟨_, grown, made_bindParameters opened fun a member => (each a member).later grown, ?_,
      ?_, True.intro⟩
    · change m.store.scopes.scopes.size < i.scopes + 1
      exact made.store.sized ▸ Nat.lt_succ_self _
    · refine List.forall_mem_cons.mpr ⟨True.intro, List.forall_mem_cons.mpr ⟨⟨?_, ?_⟩, ?_⟩⟩
      · exact Nat.lt_of_lt_of_le made.scope grown.scopes
      · intro own initialized
        split at initialized
        · cases initialized
          exact Nat.lt_of_lt_of_le callee.scope grown.scopes
        · cases initialized
      · exact fun frame member => (made.frames frame member).later grown

theorem Made.instantiate (made : m.Made i) {k : Class} {arguments : List Value}
    (callee : (Value.cls k).Made i) (each : ∀ a ∈ arguments, a.Made i) :
    (instantiate c m k arguments).Making i := by
  obtain ⟨store, object⟩ := made.store.instantiate callee
  have first := i.extends_addObject (m.store.instantiate k).2
  unfold Machine.instantiate
  cases found : k.initializer with
  | none => exact ⟨_, first, made.go first store (.value _) object⟩
  | some method =>
    let j := i.addObject (m.store.instantiate k).2
    have second := j.extends_addScope
    obtain ⟨bound, closure⟩ := store.bind (store.findMethod (Value.Made.later first callee) found)
      object
    have waiting : Made j.addScope
        { m with
          store := ((m.store.instantiate k).1.bind method (.object (m.store.instantiate k).2)).1
          frames := .construct (m.store.instantiate k).2 :: m.frames } := by
      have moved := made.go (first.trans second) bound .done True.intro
      refine ⟨bound, moved.scope, List.forall_mem_cons.mpr ⟨?_, moved.frames⟩, ?_⟩
      · exact Value.Made.later second object
      · exact made.control.later (first.trans second)
    exact (waiting.enter (c := c) closure fun a member =>
      (each a member).later (first.trans second)).before (first.trans second)

theorem Made.callHost (made : m.Made i) (f : Native) {arguments : List Value}
    (each : ∀ a ∈ arguments, a.Made i) : (callHost m f arguments).Made i := by
  have called : Made i { m with store := (m.store.callHost f arguments).1 } :=
    made.go (.refl i) (made.store.callHost f each) m.control made.control
  rcases callHost_replies (m := m) f (made_toValue i) each called.store.recollect with
    ⟨a, value, same⟩ | ⟨text, line, file, same⟩ <;> rw [same]
  · exact called.give value
  · exact called.fail _

theorem Made.call (made : m.Made i) (callee : Expr) (paren : Token) {calleeValue : Value}
    {arguments : List Value} (value : calleeValue.Made i) (each : ∀ a ∈ arguments, a.Made i) :
    (call c m callee paren calleeValue arguments).Making i := by
  unfold Machine.call
  cases calleeValue with
  | closure f =>
    dsimp only [Value.callable?]
    split
    · exact (made.fail _).making
    · exact made.enter value each
  | native f =>
    dsimp only [Value.callable?]
    split
    · exact (made.fail _).making
    · exact (made.callHost f each).making
  | cls k =>
    dsimp only [Value.callable?]
    split
    · exact (made.fail _).making
    · exact made.instantiate value each
  | nil | bool _ | number _ | string _ | object _ => exact (made.fail _).making

theorem Made.supply (made : m.Made i) (callee : Expr) (paren : Token) {calleeValue : Value}
    {given : List Value} (arguments : List Expr) (value : calleeValue.Made i)
    (each : ∀ a ∈ given, a.Made i) :
    (supply c m calleeValue callee paren given arguments).Making i := by
  cases arguments with
  | nil => exact made.call callee paren value fun a member => each a (List.mem_reverse.mp member)
  | cons e rest =>
    exact made.awaiting e ⟨value, each⟩

theorem Made.readProperty (made : m.Made i) (name : Token) {a : Value} (value : a.Made i) :
    (readProperty m name a).Making i := by
  unfold Machine.readProperty
  split
  · rename_i o
    split
    · rename_i b found
      exact (made.give (made.store.field found)).making
    · split
      · rename_i method found
        exact made.giveBoundMethod (made.store.findMethod (made.store.holds value) found) value
      · exact (made.fail _).making
  · exact (made.fail _).making

theorem named_of_methodTable {scope : ScopeId} {methods : List FunctionDecl}
    {entry : String × Method} (member : entry ∈ methodTable scope methods) :
    entry.2.decl.name.lexeme = entry.1 ∧ entry.2.isInitializer = (entry.1 == "init") := by
  have general : ∀ (ds : List FunctionDecl) (table : Table Method),
      (∀ m ∈ table, m.2.decl.name.lexeme = m.1 ∧ m.2.isInitializer = (m.1 == "init")) →
      ∀ m ∈ ds.foldl (fun table decl =>
        table.put decl.name.lexeme ⟨decl, scope, decl.name.lexeme == "init"⟩) table,
      m.2.decl.name.lexeme = m.1 ∧ m.2.isInitializer = (m.1 == "init") := by
    intro ds
    induction ds with
    | nil => exact fun table known => known
    | cons d rest ih =>
      intro table known
      apply ih
      intro m here
      rcases Table.mem_put here with rfl | older
      · exact ⟨rfl, rfl⟩
      · exact known m older
  exact general methods [] (List.forall_mem_nil _) entry member

theorem made_of_methodTable {around : ScopeId} {methods : List FunctionDecl}
    (there : around < i.scopes) : ∀ entry ∈ methodTable around methods, entry.2.Made i entry.1 := by
  intro entry member
  obtain ⟨named, initializer⟩ := named_of_methodTable member
  exact ⟨(mem_methodTable member).2.symm ▸ there, named, initializer⟩

theorem Made.defineFunction (made : m.Made i) (decl : FunctionDecl) :
    (m.defineFunction decl).Made i := by
  refine made.go (.refl i) (made.store.identify.define _ _ ?_) .done True.intro
  exact ⟨made.scope, fun other => nomatch other⟩

theorem Made.defineClass (made : m.Made i) (name : Token) {superclass : Option Class}
    (methods : List FunctionDecl)
    (inherited : ∀ base, superclass = some base → (Value.cls base).Made i) :
    (m.defineClass name superclass methods).Making i := by
  have named := made.store.define m.scope name.lexeme (a := .nil) True.intro
  -- the class is made in a scope that is there, and is bound afterwards
  have bound : ∀ {j : Inventory} {s : Store} {around : ScopeId}, i.Extends j → s.Made j →
      around < j.scopes → (∀ base, superclass = some base → base.identity < s.nextIdentity) →
      let k : Class := ⟨s.nextIdentity, name.lexeme, superclass, methodTable around methods⟩
      i.Extends (j.addClass k) ∧
        (s.identify.1.define m.scope name.lexeme (.cls k)).Made (j.addClass k) := by
    intro j s around grown store there older k
    have founded : k.Founded j := by
      refine ⟨fun base extended => ⟨?_, older base extended⟩, made_of_methodTable there⟩
      exact grown.classes.subset (inherited base extended)
    refine ⟨grown.trans (j.extends_addClass k), (store.addClass founded rfl).define _ _ ?_⟩
    exact List.mem_append_right _ (List.mem_singleton_self k)
  cases superclass with
  | none =>
    obtain ⟨grown, store⟩ := bound (.refl i) named made.scope fun _ absent => nomatch absent
    exact ⟨_, grown, made.settle grown store⟩
  | some base =>
    have first := i.extends_addScope
    have known := inherited base rfl
    let inner := (m.store.define m.scope name.lexeme .nil).scopes.scopes.size
    have opened := (named.openScope made.scope).define inner "super" (Value.Made.later first known)
    have there : inner < i.addScope.scopes := by
      change _ < i.scopes + 1
      exact named.sized ▸ Nat.lt_succ_self _
    obtain ⟨grown, store⟩ := bound first opened there fun base extended => by
      cases extended
      exact made.store.older base known
    exact ⟨_, grown, made.settle grown store⟩

theorem Made.evaluate (made : m.Made i) (e : Expr) : (evaluate c m e).Making i := by
  cases e with
  | literal id value => exact (made.give (made_toValue i value)).making
  | read use => exact (made.lookUp use.id use.name).making
  | this id keyword => exact (made.lookUp id keyword).making
  | super id keyword method => exact made.lookUpSuper id method
  | grouping id inner => exact (made.turn (.evaluate inner) True.intro).making
  | assign | unary | binary | logical | call | get | set =>
    exact made.awaiting _ True.intro

theorem Made.execute (made : m.Made i) (s : Stmt) : (execute m s).Making i := by
  cases s with
  | expression id e | print id e => exact made.awaiting e True.intro
  | var id name initializer =>
    cases initializer with
    | none =>
      exact (made.go (.refl i) (made.store.define m.scope name.lexeme (a := .nil) True.intro)
        .done True.intro).making
    | some e => exact made.awaiting e True.intro
  | block id body =>
    have grown := i.extends_addScope
    refine ⟨_, grown, made.store.openScope made.scope, ?_, ?_, True.intro⟩
    · change m.store.scopes.scopes.size < i.scopes + 1
      exact made.store.sized ▸ Nat.lt_succ_self _
    · refine List.forall_mem_cons.mpr ⟨True.intro, List.forall_mem_cons.mpr ⟨?_, ?_⟩⟩
      · exact Nat.lt_of_lt_of_le made.scope grown.scopes
      · exact fun frame member => (made.frames frame member).later grown
  | branch id condition yes no => exact made.awaiting condition True.intro
  | loop id condition body => exact made.awaiting condition True.intro
  | function decl => exact (made.defineFunction decl).making
  | returns id keyword value =>
    cases value with
    | none => exact (made.turn (.returning .nil) True.intro).making
    | some e => exact made.awaiting e True.intro
  | classDecl id name superclass methods =>
    cases superclass with
    | none =>
      have inherited : ∀ base, (none : Option Class) = some base → (Value.cls base).Made i :=
        fun _ absent => nomatch absent
      exact made.defineClass name methods inherited
    | some use => exact made.awaiting (.read use) True.intro

theorem Made.leaveCall (made : m.Made i) {scope : ScopeId} (initialized : Option ScopeId)
    {a : Value} (there : scope < i.scopes) (value : a.Made i) :
    (m.leaveCall scope initialized a).Made i := by
  have left : Made i { m with scope, depth := m.depth - 1 } :=
    ⟨made.store, there, made.frames, made.control⟩
  cases initialized with
  | none => exact left.give value
  | some own => exact left.giveBound fun b found => made.store.get found

theorem Made.resume (made : m.Made i) {a : Value} {frame : Frame} (value : a.Made i)
    (waits : frame.Made i) : (resume c m a frame).Making i := by
  have moved : ∀ (control : Control) {frames : List Frame} {printed : List String},
      control.Made i → (∀ frame ∈ frames, frame.Made i) →
      Making i { m with control, frames, printed } :=
    fun _ _ _ next framed => ⟨i, .refl i, made.store, made.scope, framed, next⟩
  cases frame with
  | assign id name => exact (made.assignTo id name value).making
  | operand operator => exact (made.giveResult fun _ => literal_of_applyPrefix).making
  | leftOperand left operator right =>
    exact made.awaiting right value
  | rightOperand leftValue left operator right =>
    exact (made.giveResult fun _ => literal_of_applyBinary).making
  | shortcut operator right =>
    simp only [Machine.resume]
    split
    · exact (made.give value).making
    · exact moved (.evaluate right) True.intro made.frames
  | callee callee paren arguments =>
    exact made.supply callee paren arguments value (List.forall_mem_nil _)
  | argument calleeValue callee paren given rest =>
    exact made.supply callee paren rest waits.1 (List.forall_mem_cons.mpr ⟨value, waits.2⟩)
  | property name => exact made.readProperty name value
  | target name right =>
    cases a with
    | object o => exact made.awaiting right value
    | _ => exact (made.fail _).making
  | field o name =>
    exact (made.go (.refl i) (made.store.setField o name.lexeme value) (.value a)
      value).making
  | discard => exact (made.turn .done True.intro).making
  | print => exact moved .done True.intro made.frames
  | define name =>
    exact (made.go (.refl i) (made.store.define m.scope name.lexeme value) .done
      True.intro).making
  | choose yes no =>
    simp only [Machine.resume]
    split
    · exact moved (.execute yes) True.intro made.frames
    · split
      · exact moved (.execute _) True.intro made.frames
      · exact (made.turn .done True.intro).making
  | test condition body =>
    simp only [Machine.resume]
    split
    · exact moved (.execute body) True.intro
        (List.forall_mem_cons.mpr ⟨True.intro, made.frames⟩)
    · exact (made.turn .done True.intro).making
  | giveBack => exact moved (.returning a) value made.frames
  | heritage superclass name methods =>
    cases a with
    | cls base =>
      have inherited : ∀ other, some base = some other → (Value.cls other).Made i := by
        rintro other ⟨⟩
        exact value
      exact made.defineClass name methods inherited
    | _ => exact (made.fail _).making
  | construct o => exact (made.give (a := .object o) waits).making
  | again | sequence | leaveBlock | leaveCall => exact made.making

theorem Made.proceed (made : m.Made i) {frame : Frame} (waits : frame.Made i) :
    (proceed m frame).Made i := by
  cases frame with
  | again condition body => exact made.evaluating condition True.intro
  | sequence rest =>
    cases rest with
    | nil => exact made
    | cons s rest =>
      exact ⟨made.store, made.scope, List.forall_mem_cons.mpr ⟨True.intro, made.frames⟩, True.intro⟩
  | leaveBlock scope => exact ⟨made.store, waits, made.frames, made.control⟩
  | leaveCall scope initialized => exact made.leaveCall initialized waits.1 True.intro
  | _ => exact made

theorem Made.passReturn (made : m.Made i) {a : Value} {frame : Frame} (value : a.Made i)
    (waits : frame.Made i) : (passReturn m a frame).Made i := by
  cases frame with
  | leaveBlock scope => exact ⟨made.store, waits, made.frames, made.control⟩
  | leaveCall scope initialized => exact made.leaveCall initialized waits.1 value
  | _ => exact made

theorem Made.passFailure (made : m.Made i) {frame : Frame} (waits : frame.Made i) :
    (passFailure m frame).Made i := by
  cases frame with
  | leaveBlock scope => exact ⟨made.store, waits, made.frames, made.control⟩
  | leaveCall scope initialized => exact ⟨made.store, waits.1, made.frames, made.control⟩
  | _ => exact made

theorem Made.step (made : m.Made i) : (step c m).Making i := by
  obtain ⟨control, frames, scope, depth, store, printed, classes⟩ := m
  have at_phrase := made.control
  have taken : ∀ {frame rest}, frames = frame :: rest → frame.Made i ∧
      Made i ⟨control, rest, scope, depth, store, printed, classes⟩ := by
    rintro frame rest rfl
    obtain ⟨first, others⟩ := List.forall_mem_cons.mp made.frames
    exact ⟨first, made.store, made.scope, others, at_phrase⟩
  cases control with
  | evaluate e => exact made.evaluate e
  | execute s => exact made.execute s
  | value a =>
    cases frames with
    | nil => exact made.making
    | cons frame rest => exact (taken rfl).2.resume at_phrase (taken rfl).1
  | done =>
    cases frames with
    | nil => exact made.making
    | cons frame rest => exact ((taken rfl).2.proceed (taken rfl).1).making
  | returning a =>
    cases frames with
    | nil => exact made.making
    | cons frame rest => exact ((taken rfl).2.passReturn at_phrase (taken rfl).1).making
  | failing f =>
    cases frames with
    | nil => exact made.making
    | cons frame rest => exact ((taken rfl).2.passFailure (taken rfl).1).making

end Machine

end LoxMachine
