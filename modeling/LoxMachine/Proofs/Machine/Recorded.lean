import LoxMachine.Proofs.Value.Recorded
import LoxMachine.Proofs.Machine.Operations

namespace LoxMachine

/-- A frame whose code is written in a program and whose values are recorded. -/
def Frame.Recorded (w : Past) : Frame → Prop
  | argument calleeValue _ _ given _ => calleeValue.Recorded w ∧ ∀ a ∈ given, a.Recorded w
  | field object _ | construct object => object.cls.Recorded w
  | choose yes no => w.Written yes ∧ ∀ s, no = some s → w.Written s
  | test _ body | again _ body => w.Written body
  | heritage _ name methods => ∃ id use, w.Written (.classDecl id name (some use) methods)
  | sequence rest => ∀ s ∈ rest, w.Written s
  | leaveBlock scope | leaveCall scope _ => w.IsBody scope
  | assign _ _ | operand _ | leftOperand _ _ _ | rightOperand _ _ _ _ | shortcut _ _
  | callee _ _ _ | property _ | target _ _ | discard | print | define _ | giveBack => True

def Control.Recorded (w : Past) : Control → Prop
  | execute s => w.Written s
  | value a | returning a => a.Recorded w
  | evaluate _ | done | failing _ => True

theorem Frame.Recorded.later {w v : Past} (grown : w.Extends v) {frame : Frame}
    (recorded : frame.Recorded w) : frame.Recorded v := by
  cases frame with
  | argument calleeValue callee paren given rest =>
    exact ⟨recorded.1.later grown, fun a member => (recorded.2 a member).later grown⟩
  | field object _ | construct object => exact Class.Recorded.later grown (c := object.cls) recorded
  | choose yes no =>
    exact ⟨grown.written recorded.1, fun s same => grown.written (recorded.2 s same)⟩
  | test _ _ | again _ _ => exact grown.written recorded
  | heritage _ _ _ =>
    obtain ⟨id, use, written⟩ := recorded
    exact ⟨id, use, grown.written written⟩
  | sequence _ => exact fun s member => grown.written (recorded s member)
  | leaveBlock _ | leaveCall _ _ => exact grown.isBody recorded
  | assign _ _ | operand _ | leftOperand _ _ _ | rightOperand _ _ _ _ | shortcut _ _
  | callee _ _ _ | property _ | target _ _ | discard | print | define _ | giveBack =>
    exact True.intro

theorem Control.Recorded.later {w v : Past} (grown : w.Extends v) {control : Control}
    (recorded : control.Recorded w) : control.Recorded v := by
  cases control with
  | execute s => exact grown.written recorded
  | value _ | returning _ => exact Value.Recorded.later grown recorded
  | evaluate _ | done | failing _ => exact True.intro

namespace Machine

structure Recorded (w : Past) (m : Machine) : Prop where
  store : m.store.Recorded w
  body : w.IsBody m.scope
  frames : ∀ frame ∈ m.frames, frame.Recorded w
  control : m.control.Recorded w

variable {w : Past} {c : Setting} {m : Machine}

theorem recorded_still {n : Machine} (recorded : n.Recorded w) : n.Recorded (w.add []) := by
  rwa [Past.add_nil]

theorem recorded_give (recorded : m.Recorded w) {a : Value} (value : a.Recorded w) :
    (m.give a).Recorded w := ⟨recorded.store, recorded.body, recorded.frames, value⟩

theorem recorded_finish (recorded : m.Recorded w) : m.finish.Recorded w :=
  ⟨recorded.store, recorded.body, recorded.frames, True.intro⟩

theorem recorded_fail (recorded : m.Recorded w) (f : Failure) : (m.fail f).Recorded w :=
  ⟨recorded.store, recorded.body, recorded.frames, True.intro⟩

theorem recorded_evaluating (recorded : m.Recorded w) (e : Expr) (frame : Frame)
    (waits : frame.Recorded w) : (m.evaluating e frame).Recorded w :=
  ⟨recorded.store, recorded.body, List.forall_mem_cons.mpr ⟨waits, recorded.frames⟩, True.intro⟩

theorem recorded_giveBound (recorded : m.Recorded w) {result : Except ScopeError Value}
    (known : ∀ a, result = .ok a → a.Recorded w) : (m.giveBound result).Recorded w := by
  cases result with
  | ok a => exact recorded_give recorded (known a rfl)
  | error e => exact recorded_fail recorded _

theorem literal_of_numberResult {result : Except Number.RangeError Number} {a : Value}
    (given : numberResult result = .ok a) : ∃ l : Literal, a = l.toValue := by
  cases result with
  | ok n =>
    cases given
    exact ⟨.number n, rfl⟩
  | error e =>
    cases e
    cases given

theorem literal_of_applyPrefix {operator : Token} {operand a : Value}
    (given : applyPrefix operator operand = .ok a) : ∃ l : Literal, a = l.toValue := by
  unfold applyPrefix at given
  split at given
  · cases given
    exact ⟨.bool _, rfl⟩
  · split at given
    · exact literal_of_numberResult given
    · cases given

theorem literal_of_applyNumbers {form : Unit → String} {operator : Token} {x y : Number} {a : Value}
    (given : applyNumbers form operator x y = .ok a) : ∃ l : Literal, a = l.toValue := by
  unfold applyNumbers at given
  split at given
  case h_4 =>
    split at given
    · cases given
    · exact literal_of_numberResult given
  all_goals
    first
    | exact literal_of_numberResult given
    | (cases given; exact ⟨.bool _, rfl⟩)
    | cases given

theorem literal_of_applyBinary {form : Unit → String} {operator : Token} {left right a : Value}
    (given : applyBinary form operator left right = .ok a) : ∃ l : Literal, a = l.toValue := by
  unfold applyBinary at given
  split at given
  · cases given
    exact ⟨.bool _, rfl⟩
  · cases given
    exact ⟨.bool _, rfl⟩
  · cases given
    exact ⟨.string _, rfl⟩
  · exact literal_of_applyNumbers given
  · cases given

theorem recorded_giveResult (recorded : m.Recorded w) {result : Except Failure Value}
    (literal : ∀ a, result = .ok a → ∃ l : Literal, a = l.toValue) :
    (m.giveResult result).Recorded w := by
  cases result with
  | ok a =>
    obtain ⟨l, rfl⟩ := literal a rfl
    exact recorded_give recorded (recorded_toValue w l)
  | error f => exact recorded_fail recorded f

theorem recorded_lookUp (recorded : m.Recorded w) (id : NodeId) (name : Token) :
    (lookUp c m id name).Recorded w := by
  unfold lookUp
  split
  · exact recorded_giveBound recorded fun a found => recorded.store.getAt found
  · split
    · rename_i a found
      exact recorded_give recorded (recorded.store.get found)
    · exact recorded_fail recorded _

theorem recorded_assignTo (recorded : m.Recorded w) (id : NodeId) {name : Token} {a : Value}
    (ordinary : name.Ordinary) (value : a.Recorded w) : (assignTo c m id name a).Recorded w := by
  have assigned : ∀ e, Recorded w
      { m with control := .value a, store := m.store.define e name.lexeme a } :=
    fun e => ⟨recorded.store.define (.inr ordinary) value, recorded.body, recorded.frames, value⟩
  unfold assignTo
  split
  · split
    · exact assigned _
    · exact recorded_fail recorded _
  · split
    · exact assigned _
    · exact recorded_fail recorded _

theorem recorded_giveBoundMethod (recorded : m.Recorded w) {method : Method} {a : Value}
    (method_recorded : method.Recorded w) (value : a.Recorded w) :
    (m.giveBoundMethod method a).Recorded
      (w.add [.receiver method a (m.store.bind method a).2]) := by
  have grown := w.extends_add [.receiver method a (m.store.bind method a).2]
  obtain ⟨store, bound⟩ := recorded.store.bind method_recorded value
  exact ⟨store, grown.isBody recorded.body,
    fun frame member => (recorded.frames frame member).later grown, bound⟩

theorem recorded_lookUpSuper (recorded : m.Recorded w) (id : NodeId) (method : Token) :
    (lookUpSuper c m id method).Recorded (w.add (superOpenings c m id method)) := by
  have failed : ∀ f, (m.fail f).Recorded (w.add []) :=
    fun f => recorded_still (recorded_fail recorded f)
  unfold lookUpSuper superOpenings
  cases c.distances.lookup id with
  | none => exact failed _
  | some d =>
    dsimp only
    cases base_found : m.store.scopes.getAt m.scope d "super" with
    | error e => exact failed _
    | ok base =>
      dsimp only
      cases found : m.store.scopes.getAt m.scope (d - 1) "this" with
      | error e => exact failed _
      | ok receiver =>
        cases base with
        | cls base =>
          dsimp only
          cases method_found : base.findMethod method.lexeme with
          | some own =>
            exact recorded_giveBoundMethod recorded
              (recorded_findMethod (recorded.store.getAt base_found) method_found) (recorded.store.getAt found)
          | none => exact failed _
        | _ => exact failed _

theorem recorded_bindParameters {s : Store} {e : ScopeId} {params : List Token}
    {arguments : List Value} (store : s.Recorded w) (body : w.IsBody e)
    (each : ∀ a ∈ arguments, a.Recorded w) : (bindParameters s e params arguments).Recorded w := by
  induction params generalizing s arguments with
  | nil => exact store
  | cons param rest ih =>
    cases arguments with
    | nil => exact store
    | cons a others =>
      exact ih (store.define (.inl body) (each a List.mem_cons_self))
        fun b member => each b (List.mem_cons_of_mem _ member)

theorem recorded_enter (recorded : m.Recorded w) {f : Closure} {arguments : List Value}
    (callee : f.Recorded w) (each : ∀ a ∈ arguments, a.Recorded w) :
    (enter c m f arguments).Recorded (w.add (enterOpenings c m f)) := by
  unfold enter enterOpenings
  split
  · exact recorded_still (recorded_fail recorded _)
  · have grown := w.extends_add [.call f]
    have later := Closure.Recorded.later grown callee
    have opened : (m.store.openScope f.scope).1.Recorded (w.add [.call f]) :=
      recorded.store.openScope
        ⟨(Forest.enclosing_grow m.store.scopes (some f.scope) _).trans (if_pos rfl), later⟩
    have body : (w.add [.call f]).IsBody (m.store.openScope f.scope).2 := by
      refine ⟨.call f, ?_, True.intro⟩
      change (w.ledger ++ [_])[m.store.scopes.scopes.size]? = _
      rw [← recorded.store.sized, List.getElem?_concat_length]
    refine ⟨recorded_bindParameters opened body fun a member => (each a member).later grown, body,
      ?_, True.intro⟩
    refine List.forall_mem_cons.mpr ⟨later.1.body, List.forall_mem_cons.mpr ⟨?_, ?_⟩⟩
    · exact grown.isBody recorded.body
    · exact fun frame member => (recorded.frames frame member).later grown

theorem recorded_instantiate (recorded : m.Recorded w) {cls : Class} {arguments : List Value}
    (callee : cls.Recorded w) (each : ∀ a ∈ arguments, a.Recorded w) :
    (instantiate c m cls arguments).Recorded (w.add (instantiateOpenings c m cls)) := by
  have made := recorded.store.instantiate cls
  unfold instantiate instantiateOpenings
  cases found : cls.initializer with
  | none => exact recorded_still ⟨made, recorded.body, recorded.frames, callee⟩
  | some method =>
    dsimp only
    let object := (m.store.instantiate cls).2
    let binding := (m.store.instantiate cls).1.bind method (.object object)
    have grown := w.extends_add [.receiver method (.object object) binding.2]
    obtain ⟨store, bound⟩ := made.bind (a := .object object) (recorded_findMethod callee found) callee
    have waiting : Recorded (w.add [.receiver method (.object object) binding.2])
        { m with store := binding.1, frames := .construct object :: m.frames } := by
      refine ⟨store, grown.isBody recorded.body, List.forall_mem_cons.mpr ⟨?_, ?_⟩, ?_⟩
      · exact Class.Recorded.later grown callee
      · exact fun frame member => (recorded.frames frame member).later grown
      · exact Control.Recorded.later grown recorded.control
    have entered := recorded_enter (c := c) waiting bound
      fun a member => (each a member).later grown
    rwa [Past.add_add] at entered

theorem recorded_callHost (recorded : m.Recorded w) {f : Native} {arguments : List Value}
    (each : ∀ a ∈ arguments, a.Recorded w) : (callHost m f arguments).Recorded w := by
  have called : Recorded w { m with store := (m.store.callHost f arguments).1 } :=
    ⟨recorded.store.callHost f each, recorded.body, recorded.frames, recorded.control⟩
  rcases callHost_replies (m := m) f (recorded_toValue w) each called.store.recollect with
    ⟨a, value, same⟩ | ⟨text, line, file, same⟩ <;> rw [same]
  · exact recorded_give called value
  · exact recorded_fail called _

theorem recorded_call (recorded : m.Recorded w) (callee : Expr) (paren : Token)
    {calleeValue : Value} {arguments : List Value} (value : calleeValue.Recorded w)
    (each : ∀ a ∈ arguments, a.Recorded w) :
    (call c m callee paren calleeValue arguments).Recorded
      (w.add (callOpenings c m calleeValue arguments)) := by
  have failed : ∀ f, (m.fail f).Recorded (w.add []) :=
    fun f => recorded_still (recorded_fail recorded f)
  unfold call callOpenings
  cases calleeValue with
  | closure f =>
    dsimp only [Value.callable?]
    split
    · exact failed _
    · exact recorded_enter recorded value each
  | native f =>
    dsimp only [Value.callable?]
    split
    · exact failed _
    · exact recorded_still (recorded_callHost recorded each)
  | cls cls =>
    dsimp only [Value.callable?]
    split
    · exact failed _
    · exact recorded_instantiate recorded value each
  | nil | bool _ | number _ | string _ | object _ => exact failed _

theorem recorded_supply (recorded : m.Recorded w) (callee : Expr) (paren : Token)
    {calleeValue : Value} {given : List Value} (arguments : List Expr)
    (value : calleeValue.Recorded w) (each : ∀ a ∈ given, a.Recorded w) :
    (supply c m calleeValue callee paren given arguments).Recorded
      (w.add (supplyOpenings c m calleeValue given arguments)) := by
  cases arguments with
  | nil =>
    exact recorded_call recorded callee paren value
      fun a member => each a (List.mem_reverse.mp member)
  | cons e rest => exact recorded_still (recorded_evaluating recorded e _ ⟨value, each⟩)

theorem recorded_readProperty (recorded : m.Recorded w) (name : Token) {a : Value}
    (value : a.Recorded w) :
    (readProperty m name a).Recorded (w.add (propertyOpenings m name a)) := by
  unfold readProperty propertyOpenings
  cases a with
  | object o =>
    dsimp only
    cases found : (m.store.fieldsOf o).get? name.lexeme with
    | some b => exact recorded_still (recorded_give recorded (recorded.store.field found))
    | none =>
      dsimp only
      cases known : o.cls.findMethod name.lexeme with
      | some method => exact recorded_giveBoundMethod recorded (recorded_findMethod value known) value
      | none => exact recorded_still (recorded_fail recorded _)
  | _ => exact recorded_still (recorded_fail recorded _)

theorem recorded_defineFunction (recorded : m.Recorded w) {decl : FunctionDecl}
    (written : w.Written (.function decl)) : (m.defineFunction decl).Recorded w := by
  refine ⟨recorded.store.identify.define (.inl recorded.body) ?_, recorded.body, recorded.frames,
    True.intro⟩
  exact ⟨⟨_, written, List.mem_singleton_self decl⟩, .inl recorded.body⟩

theorem recorded_defineClass (recorded : m.Recorded w) {id : NodeId} {name : Token}
    {methods : List FunctionDecl} (written : w.Written (.classDecl id name none methods)) :
    (m.defineClass name none methods).Recorded w := by
  have named : (m.store.define m.scope name.lexeme .nil).Recorded w :=
    recorded.store.define (.inl recorded.body) True.intro
  refine ⟨named.identify.define (.inl recorded.body) ?_, recorded.body, recorded.frames, True.intro⟩
  refine recorded_class (fun entry member => ?_) fun _ absent => nomatch absent
  obtain ⟨own, scope⟩ := mem_methodTable member
  exact ⟨⟨_, written, own⟩, .inl (scope ▸ recorded.body)⟩

theorem recorded_defineDerived (recorded : m.Recorded w) {name : Token}
    {methods : List FunctionDecl} {base : Class}
    (written : ∃ id use, w.Written (.classDecl id name (some use) methods))
    (inherited : base.Recorded w) :
    (m.defineClass name (some base) methods).Recorded (w.add [.heritage name methods base]) := by
  have grown := w.extends_add [.heritage name methods base]
  have body := grown.isBody recorded.body
  have named : (m.store.define m.scope name.lexeme .nil).Recorded w :=
    recorded.store.define (.inl recorded.body) True.intro
  obtain ⟨id, use, known⟩ := written
  have opened := named.openNamed (e := m.scope) (o := .heritage name methods base) (a := .cls base)
    inherited ⟨(Store.openNamed_has _ _ "super" _).2, id, use, grown.written known⟩
  refine ⟨opened.identify.define (.inl body) ?_, body,
    fun frame member => (recorded.frames frame member).later grown, True.intro⟩
  refine recorded_class (fun entry member => ?_)
    fun _ same => Option.some.inj same ▸ inherited.later grown
  obtain ⟨own, scope⟩ := mem_methodTable member
  refine ⟨⟨_, grown.written known, own⟩, .inr ⟨name, methods, base, ?_, entry.1, scope ▸ member⟩⟩
  have last : entry.2.scope = w.ledger.length :=
    scope.trans ((Forest.size_define _ _ _ _).trans recorded.store.sized.symm)
  rw [last]
  exact List.getElem?_concat_length

theorem recorded_evaluate (recorded : m.Recorded w) (e : Expr) :
    (evaluate c m e).Recorded (w.add (evaluateOpenings c m e)) := by
  cases e with
  | literal id value => exact recorded_still (recorded_give recorded (recorded_toValue w value))
  | read use => exact recorded_still (recorded_lookUp recorded use.id use.name)
  | this id keyword => exact recorded_still (recorded_lookUp recorded id keyword)
  | super id keyword method => exact recorded_lookUpSuper recorded id method
  | grouping id inner =>
    exact recorded_still ⟨recorded.store, recorded.body, recorded.frames, True.intro⟩
  | assign | unary | binary | logical | call | get | set =>
    exact recorded_still (recorded_evaluating recorded _ _ True.intro)

theorem recorded_execute (recorded : m.Recorded w) {s : Stmt} (written : w.Written s) :
    (execute m s).Recorded (w.add (executeOpenings s)) := by
  cases s with
  | expression id e | print id e =>
    exact recorded_still (recorded_evaluating recorded e _ True.intro)
  | var id name initializer =>
    cases initializer with
    | none =>
      exact recorded_still ⟨recorded.store.define (.inl recorded.body) True.intro, recorded.body,
        recorded.frames, True.intro⟩
    | some e => exact recorded_still (recorded_evaluating recorded e _ True.intro)
  | block id body =>
    have grown := w.extends_add [.block id body]
    refine ⟨recorded.store.openScope True.intro, ⟨.block id body, ?_, True.intro⟩, ?_, True.intro⟩
    · change (w.ledger ++ [_])[m.store.scopes.scopes.size]? = _
      rw [← recorded.store.sized, List.getElem?_concat_length]
    · refine List.forall_mem_cons.mpr ⟨fun s member => grown.written (written.block s member),
        List.forall_mem_cons.mpr ⟨grown.isBody recorded.body, ?_⟩⟩
      exact fun frame member => (recorded.frames frame member).later grown
  | branch id condition yes no =>
    refine recorded_still (recorded_evaluating recorded condition _ ⟨written.yes, ?_⟩)
    rintro s rfl
    exact written.no
  | loop id condition body =>
    exact recorded_still
      (recorded_evaluating recorded condition (.test condition body) written.loop)
  | function decl => exact recorded_still (recorded_defineFunction recorded written)
  | returns id keyword value =>
    cases value with
    | none =>
      exact recorded_still ⟨recorded.store, recorded.body, recorded.frames, True.intro⟩
    | some e => exact recorded_still (recorded_evaluating recorded e _ True.intro)
  | classDecl id name superclass methods =>
    cases superclass with
    | none => exact recorded_still (recorded_defineClass recorded written)
    | some use =>
      exact recorded_still (recorded_evaluating recorded (.read use)
        (.heritage use.name name methods) ⟨id, use, written⟩)

theorem recorded_leaveCall (recorded : m.Recorded w) {scope : ScopeId}
    (initialized : Option ScopeId) {a : Value} (body : w.IsBody scope) (value : a.Recorded w) :
    (m.leaveCall scope initialized a).Recorded w := by
  have left : Recorded w { m with scope, depth := m.depth - 1 } :=
    ⟨recorded.store, body, recorded.frames, recorded.control⟩
  cases initialized with
  | none => exact recorded_give left value
  | some own => exact recorded_giveBound left fun b found => recorded.store.get found

theorem recorded_resume (recorded : m.Recorded w) {a : Value} {frame : Frame}
    (value : a.Recorded w) (waits : frame.Recorded w)
    (ordinary : ∀ id name, frame = .assign id name → name.Ordinary) :
    (resume c m a frame).Recorded (w.add (resumeOpenings c m a frame)) := by
  have moved : ∀ {control : Control} {frames : List Frame} {printed : List String},
      control.Recorded w → (∀ frame ∈ frames, frame.Recorded w) →
      Recorded w { m with control, frames, printed } :=
    fun at_phrase framed => ⟨recorded.store, recorded.body, framed, at_phrase⟩
  cases frame with
  | assign id name =>
    exact recorded_still (recorded_assignTo recorded id (ordinary id name rfl) value)
  | operand operator =>
    exact recorded_still (recorded_giveResult recorded fun _ => literal_of_applyPrefix)
  | leftOperand left operator right =>
    exact recorded_still (recorded_evaluating recorded right _ True.intro)
  | rightOperand leftValue left operator right =>
    exact recorded_still (recorded_giveResult recorded fun _ => literal_of_applyBinary)
  | shortcut operator right =>
    simp only [resume]
    split
    · exact recorded_still (recorded_give recorded value)
    · exact recorded_still (moved True.intro recorded.frames)
  | callee callee paren arguments =>
    exact recorded_supply recorded callee paren arguments value fun _ absent => nomatch absent
  | argument calleeValue callee paren given rest =>
    exact recorded_supply recorded callee paren rest waits.1
      (List.forall_mem_cons.mpr ⟨value, waits.2⟩)
  | property name => exact recorded_readProperty recorded name value
  | target name right =>
    cases a with
    | object o => exact recorded_still (recorded_evaluating recorded right (.field o name) value)
    | _ => exact recorded_still (recorded_fail recorded _)
  | field o name =>
    exact recorded_still ⟨recorded.store.setField value, recorded.body, recorded.frames, value⟩
  | discard => exact recorded_still (recorded_finish recorded)
  | print => exact recorded_still (moved True.intro recorded.frames)
  | define name =>
    exact recorded_still ⟨recorded.store.define (.inl recorded.body) value, recorded.body,
      recorded.frames, True.intro⟩
  | choose yes no =>
    simp only [resume]
    split
    · exact recorded_still (moved waits.1 recorded.frames)
    · split
      · exact recorded_still (moved (waits.2 _ rfl) recorded.frames)
      · exact recorded_still (recorded_finish recorded)
  | test condition body =>
    simp only [resume]
    split
    · exact recorded_still (moved waits (List.forall_mem_cons.mpr ⟨waits, recorded.frames⟩))
    · exact recorded_still (recorded_finish recorded)
  | giveBack => exact recorded_still (moved value recorded.frames)
  | heritage superclass name methods =>
    cases a with
    | cls base => exact recorded_defineDerived recorded waits value
    | _ => exact recorded_still (recorded_fail recorded _)
  | construct o => exact recorded_still (recorded_give (a := .object o) recorded waits)
  | again | sequence | leaveBlock | leaveCall => exact recorded_still recorded

theorem recorded_proceed (recorded : m.Recorded w) {frame : Frame} (waits : frame.Recorded w) :
    (proceed m frame).Recorded w := by
  cases frame with
  | again condition body =>
    exact recorded_evaluating recorded condition (.test condition body) waits
  | sequence rest =>
    cases rest with
    | nil => exact recorded
    | cons s rest =>
      obtain ⟨first, others⟩ := List.forall_mem_cons.mp waits
      exact ⟨recorded.store, recorded.body,
        List.forall_mem_cons.mpr ⟨others, recorded.frames⟩, first⟩
  | leaveBlock scope => exact ⟨recorded.store, waits, recorded.frames, recorded.control⟩
  | leaveCall scope initialized => exact recorded_leaveCall recorded initialized waits True.intro
  | _ => exact recorded

theorem recorded_passReturn (recorded : m.Recorded w) {a : Value} {frame : Frame}
    (value : a.Recorded w) (waits : frame.Recorded w) : (passReturn m a frame).Recorded w := by
  cases frame with
  | leaveBlock scope => exact ⟨recorded.store, waits, recorded.frames, recorded.control⟩
  | leaveCall scope initialized => exact recorded_leaveCall recorded initialized waits value
  | _ => exact recorded

theorem recorded_passFailure (recorded : m.Recorded w) {frame : Frame} (waits : frame.Recorded w) :
    (passFailure m frame).Recorded w := by
  cases frame with
  | leaveBlock scope | leaveCall scope _ =>
    exact ⟨recorded.store, waits, recorded.frames, recorded.control⟩
  | _ => exact recorded

/-- The next state is recorded when the openings of the step are. -/
theorem recorded_step (recorded : m.Recorded w)
    (ordinary : ∀ id name rest, m.frames = .assign id name :: rest → name.Ordinary) :
    (step c m).Recorded (w.add (openings c m)) := by
  obtain ⟨control, frames, scope, depth, store, printed, classes⟩ := m
  have at_phrase := recorded.control
  have taken : ∀ {frame rest}, frames = frame :: rest → frame.Recorded w ∧
      Recorded w ⟨control, rest, scope, depth, store, printed, classes⟩ := by
    rintro frame rest rfl
    obtain ⟨first, others⟩ := List.forall_mem_cons.mp recorded.frames
    exact ⟨first, recorded.store, recorded.body, others, at_phrase⟩
  cases control with
  | evaluate e => exact recorded_evaluate recorded e
  | execute s => exact recorded_execute recorded at_phrase
  | value a =>
    cases frames with
    | nil => exact recorded_still recorded
    | cons frame rest =>
      obtain ⟨waits, others⟩ := taken rfl
      refine recorded_resume others at_phrase waits ?_
      rintro id name rfl
      exact ordinary id name rest rfl
  | done =>
    cases frames with
    | nil => exact recorded_still recorded
    | cons frame rest => exact recorded_still (recorded_proceed (taken rfl).2 (taken rfl).1)
  | returning a =>
    cases frames with
    | nil => exact recorded_still recorded
    | cons frame rest =>
      exact recorded_still (recorded_passReturn (taken rfl).2 at_phrase (taken rfl).1)
  | failing f =>
    cases frames with
    | nil => exact recorded_still recorded
    | cons frame rest => exact recorded_still (recorded_passFailure (taken rfl).2 (taken rfl).1)

end Machine

end LoxMachine
