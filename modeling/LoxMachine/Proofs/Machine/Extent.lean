import LoxMachine.Proofs.Machine.Operations

namespace LoxMachine

open Static

namespace Frame

/-- What a frame declares in the scope that it is resumed in. -/
def declared : Frame → List Token
  | define name | heritage _ name _ => [name]
  | sequence body => body.flatMap Stmt.declared
  | choose yes none => yes.declared
  | choose yes (some no) => yes.declared ++ no.declared
  | test _ body | again _ body => body.declared
  | assign _ _ | operand _ | leftOperand _ _ _ | rightOperand _ _ _ _ | shortcut _ _ | callee _ _ _
  | argument _ _ _ _ _ | property _ | target _ _ | field _ _ | discard | print | giveBack
  | leaveBlock _ | leaveCall _ _ | construct _ => []

def scopeAfter (e : ScopeId) : Frame → ScopeId
  | leaveBlock scope | leaveCall scope _ => scope
  | _ => e

def takesValue : Frame → Bool
  | again _ _ | sequence _ | leaveBlock _ | leaveCall _ _ => false
  | assign _ _ | operand _ | leftOperand _ _ _ | rightOperand _ _ _ _ | shortcut _ _
  | callee _ _ _ | argument _ _ _ _ _ | property _ | target _ _ | field _ _ | discard | print
  | define _ | choose _ _ | test _ _ | giveBack | heritage _ _ _ | construct _ => true

def givesValue : Frame → Bool
  | discard | print | define _ | choose _ _ | test _ _ | again _ _ | giveBack | heritage _ _ _
  | sequence _ | leaveBlock _ => false
  | assign _ _ | operand _ | leftOperand _ _ _ | rightOperand _ _ _ _ | shortcut _ _
  | callee _ _ _ | argument _ _ _ _ _ | property _ | target _ _ | field _ _ | leaveCall _ _
  | construct _ => true

end Frame

/-- What the run of a phrase keeps to. -/
structure Extent where
  home : ScopeId
  first : ScopeId
  names : ScopeId → String → Prop
  outside : Prop

namespace Extent

def naming (P : String → Prop) : Extent := ⟨Store.globals, 1, fun _ => P, True⟩

variable (x : Extent)

def Admits (e : ScopeId) (declared : List Token) : Prop :=
  e < x.first → x.outside ∧ ∀ t ∈ declared, x.names e t.lexeme

def AdmitsFrame (e : ScopeId) : Frame → Prop
  | .leaveBlock _ | .leaveCall _ _ | .construct _ => True
  | frame => x.Admits e frame.declared

def AdmitsFrames : Bool → ScopeId → List Frame → Prop
  | _, e, [] => e = x.home
  | takesValue, e, frame :: rest =>
    frame.takesValue = takesValue ∧ x.AdmitsFrame e frame ∧
      AdmitsFrames frame.givesValue (frame.scopeAfter e) rest

variable {x} {e : ScopeId}

theorem Admits.fresh (new : x.first ≤ e) (declared : List Token) : x.Admits e declared := by
  intro old
  exact absurd old (Nat.not_lt.mpr new)

theorem Admits.mono {few many : List Token} (admits : x.Admits e many) (fewer : few ⊆ many) :
    x.Admits e few :=
  fun old => ⟨(admits old).1, fun t member => (admits old).2 t (fewer member)⟩

theorem Admits.none {declared : List Token} (admits : x.Admits e declared) : x.Admits e [] :=
  admits.mono (List.nil_subset declared)

theorem Admits.name {t : Token} (admits : x.Admits e [t]) (old : e < x.first) :
    x.names e t.lexeme :=
  (admits old).2 t (List.mem_singleton_self t)

end Extent

variable {x : Extent}

structure Store.Keeps (x : Extent) (s : Store) : Prop where
  old : x.first ≤ s.scopes.scopes.size
  bound : ∀ e < x.first, ∀ name, s.scopes.contains e name = true → x.names e name

theorem Store.bound_of_define {s : Store} {e query : ScopeId} {name other : String} {a : Value}
    (bound : (s.define e name a).scopes.contains query other = true) :
    (query = e ∧ other = name) ∨ s.scopes.contains query other = true := by
  by_cases inside : e < s.scopes.scopes.size
  · exact (Forest.contains_define s.scopes e query name other a inside).mp bound
  · rw [Store.define, Forest.contains, Forest.bindings_define, if_neg (inside ·.2)] at bound
    exact .inr bound

namespace Store.Keeps

variable {s : Store}

theorem define (keeps : s.Keeps x) {e : ScopeId} {name : String} (a : Value)
    (allowed : e < x.first → x.names e name) : (s.define e name a).Keeps x := by
  constructor
  · rw [Store.define, Forest.size_define]
    exact keeps.old
  · intro query older other bound
    rcases bound_of_define bound with ⟨rfl, rfl⟩ | before
    · exact allowed older
    · exact keeps.bound query older other before

theorem openScope (keeps : s.Keeps x) (e : ScopeId) : (s.openScope e).1.Keeps x := by
  constructor
  · have size : (s.openScope e).1.scopes.scopes.size = s.scopes.scopes.size + 1 :=
      Forest.size_grow s.scopes (some e)
    rw [size]
    exact Nat.le_succ_of_le keeps.old
  · intro query older name bound
    apply keeps.bound query older name
    rwa [← Forest.contains_grow s.scopes (some e)]

theorem congr {t : Store} (keeps : s.Keeps x) (same : t.scopes = s.scopes) : t.Keeps x :=
  ⟨same ▸ keeps.old, same ▸ keeps.bound⟩

theorem identify (keeps : s.Keeps x) : s.identify.1.Keeps x := keeps.congr rfl

theorem defineNew (keeps : s.Keeps x) {e : ScopeId} (new : x.first ≤ e) (name : String)
    (a : Value) : (s.define e name a).Keeps x := by
  apply keeps.define
  intro older
  exact absurd older (Nat.not_lt.mpr new)

theorem bind (keeps : s.Keeps x) (method : Method) (receiver : Value) :
    (s.bind method receiver).1.Keeps x :=
  ((keeps.openScope method.scope).defineNew keeps.old "this" receiver).identify

theorem bindParameters (keeps : s.Keeps x) {e : ScopeId} (new : x.first ≤ e)
    (params : List Token) (arguments : List Value) :
    (Machine.bindParameters s e params arguments).Keeps x := by
  induction params generalizing s arguments with
  | nil => exact keeps
  | cons param rest ih =>
    cases arguments with
    | nil => exact keeps
    | cons a others =>
      apply ih
      exact keeps.defineNew new param.lexeme a

end Store.Keeps

def Control.Suits (x : Extent) (e : ScopeId) (takesValue : Bool) : Control → Prop
  | evaluate _ => takesValue = true ∧ x.Admits e []
  | execute s => takesValue = false ∧ x.Admits e s.declared
  | value _ => takesValue = true
  | done | returning _ => takesValue = false
  | failing _ => True

namespace Machine

structure Ready (x : Extent) (takesValue : Bool) (m : Machine) : Prop where
  store : m.store.Keeps x
  frames : x.AdmitsFrames takesValue m.scope m.frames

def Keeps (x : Extent) (m : Machine) : Prop :=
  ∃ takesValue, m.control.Suits x m.scope takesValue ∧ m.Ready x takesValue

theorem Keeps.store {m : Machine} (keeps : m.Keeps x) : m.store.Keeps x := by
  obtain ⟨_, _, ready⟩ := keeps
  exact ready.store

inductive Assigns (c : Setting) (m : Machine) (e : ScopeId) : String → Prop
  | intro {id name rest a d} (control : m.control = .value a)
      (frames : m.frames = .assign id name :: rest) (distance : c.distances.lookup id = some d)
      (found : m.store.scopes.ancestor m.scope d = .ok e) : Assigns c m e name.lexeme

variable {c : Setting} {m : Machine} {takesValue : Bool}

theorem Ready.give (ready : m.Ready x true) (a : Value) : (m.give a).Keeps x :=
  ⟨true, rfl, ready.store, ready.frames⟩

theorem Ready.finish (ready : m.Ready x false) : m.finish.Keeps x :=
  ⟨false, rfl, ready.store, ready.frames⟩

theorem Ready.fail (ready : m.Ready x takesValue) (f : Failure) : (m.fail f).Keeps x :=
  ⟨takesValue, True.intro, ready.store, ready.frames⟩

theorem Ready.complain (ready : m.Ready x takesValue) (t : Token) (complaint : Complaint) :
    (m.complain t complaint).Keeps x := ready.fail _

theorem Ready.evaluating (e : Expr) (frame : Frame) (ready : m.Ready x frame.givesValue)
    (takes : frame.takesValue = true) (admits : x.Admits m.scope frame.declared)
    (admitted : x.AdmitsFrame m.scope frame) (stays : frame.scopeAfter m.scope = m.scope) :
    (m.evaluating e frame).Keeps x :=
  ⟨true, ⟨rfl, admits.none⟩, ready.store, takes, admitted, stays.symm ▸ ready.frames⟩

theorem Ready.giveResult (ready : m.Ready x true) (result : Except Failure Value) :
    (m.giveResult result).Keeps x := by
  cases result with
  | ok a => exact ready.give a
  | error f => exact ready.fail f

theorem Ready.giveBound (ready : m.Ready x true) (result : Except ScopeError Value) :
    (m.giveBound result).Keeps x := by
  cases result with
  | ok a => exact ready.give a
  | error e => exact ready.fail _

theorem Ready.lookUp (ready : m.Ready x true) (id : NodeId) (name : Token) :
    (lookUp c m id name).Keeps x := by
  unfold Machine.lookUp
  split
  · exact ready.giveBound _
  · split
    · exact ready.give _
    · exact ready.complain _ _

theorem Ready.assignTo (ready : m.Ready x true) {id : NodeId} {name : Token} (a : Value)
    (assigned : ∀ d e, c.distances.lookup id = some d →
      m.store.scopes.ancestor m.scope d = .ok e →
      m.store.scopes.contains e name.lexeme = true ∨ x.first ≤ e) :
    (assignTo c m id name a).Keeps x := by
  unfold Machine.assignTo
  split
  · rename_i d distance
    split
    · rename_i e found
      refine ⟨true, rfl, ready.store.define a ?_, ready.frames⟩
      intro older
      rcases assigned d e distance found with bound | new
      · exact ready.store.bound e older _ bound
      · exact absurd older (Nat.not_lt.mpr new)
    · exact ready.fail _
  · split
    · rename_i bound
      refine ⟨true, rfl, ready.store.define a ?_, ready.frames⟩
      exact fun older => ready.store.bound _ older _ bound
    · exact ready.complain _ _

theorem Ready.giveBoundMethod (ready : m.Ready x true) (method : Method) (receiver : Value) :
    (m.giveBoundMethod method receiver).Keeps x :=
  ⟨true, rfl, ready.store.bind method receiver, ready.frames⟩

theorem Ready.lookUpSuper (ready : m.Ready x true) (id : NodeId) (method : Token) :
    (lookUpSuper c m id method).Keeps x := by
  unfold Machine.lookUpSuper
  split
  · exact ready.fail _
  · split
    · exact ready.fail _
    · split
      · exact ready.fail _
      · split
        · split
          · exact ready.giveBoundMethod _ _
          · exact ready.complain _ _
        · exact ready.fail _

theorem Ready.evaluate (ready : m.Ready x true) (here : x.Admits m.scope []) (e : Expr) :
    (evaluate c m e).Keeps x := by
  cases e with
  | read use => exact ready.lookUp _ _
  | this id keyword => exact ready.lookUp _ _
  | super id keyword method => exact ready.lookUpSuper _ _
  | literal id value => exact ready.give _
  | grouping id inner => exact ⟨true, ⟨rfl, here⟩, ready.store, ready.frames⟩
  | assign | unary | binary | logical | call | get | set =>
    exact ready.evaluating _ _ rfl here here rfl

theorem Ready.enter (ready : m.Ready x true) (f : Closure) (arguments : List Value) :
    (enter c m f arguments).Keeps x := by
  unfold Machine.enter
  split
  · exact ready.fail _
  · have new : x.first ≤ (m.store.openScope f.scope).2 := ready.store.old
    have opened := (ready.store.openScope f.scope).bindParameters new f.decl.params arguments
    exact ⟨false, rfl, opened, rfl, Extent.Admits.fresh new _, rfl, True.intro, ready.frames⟩

theorem Ready.instantiate (ready : m.Ready x true) (k : Class) (arguments : List Value) :
    (instantiate c m k arguments).Keeps x := by
  have made : (m.store.instantiate k).1.Keeps x := ready.store.congr rfl
  unfold Machine.instantiate
  cases k.initializer with
  | none => exact ⟨true, rfl, made, ready.frames⟩
  | some method =>
    apply Ready.enter
    exact ⟨made.bind _ _, rfl, True.intro, ready.frames⟩

theorem Ready.callHost (ready : m.Ready x true) (f : Native) (arguments : List Value) :
    (m.callHost f arguments).Keeps x := by
  have called := ready.store.congr (Store.scopes_callHost f arguments)
  have after : Ready x true { m with store := (m.store.callHost f arguments).1 } :=
    ⟨called, ready.frames⟩
  unfold Machine.callHost
  dsimp only
  split
  · exact after.give _
  · exact after.give _
  · exact after.give _
  · exact after.fail _

theorem Ready.call (ready : m.Ready x true) (callee : Expr) (paren : Token) (a : Value)
    (arguments : List Value) : (call c m callee paren a arguments).Keeps x := by
  unfold Machine.call
  split
  · exact ready.complain _ _
  · split
    · exact ready.complain _ _
    · split
      · exact ready.enter _ _
      · exact ready.callHost _ _
      · exact ready.instantiate _ _

theorem Ready.supply (ready : m.Ready x true) (here : x.Admits m.scope []) (a : Value)
    (callee : Expr) (paren : Token) (given : List Value) (arguments : List Expr) :
    (supply c m a callee paren given arguments).Keeps x := by
  cases arguments with
  | nil => exact ready.call _ _ _ _
  | cons e rest => exact ready.evaluating e _ rfl here here rfl

theorem Ready.readProperty (ready : m.Ready x true) (name : Token) (a : Value) :
    (m.readProperty name a).Keeps x := by
  unfold Machine.readProperty
  split
  · split
    · exact ready.give _
    · split
      · exact ready.giveBoundMethod _ _
      · exact ready.complain _ _
  · exact ready.complain _ _

theorem Ready.defineClass (ready : m.Ready x false) {name : Token} (superclass : Option Class)
    (methods : List FunctionDecl) (here : x.Admits m.scope [name]) :
    (m.defineClass name superclass methods).Keeps x := by
  have named := ready.store.define .nil here.name
  cases superclass with
  | none => exact ⟨false, rfl, named.identify.define _ here.name, ready.frames⟩
  | some base =>
    have opened := (named.openScope m.scope).defineNew named.old "super" (.cls base)
    exact ⟨false, rfl, opened.identify.define _ here.name, ready.frames⟩

theorem Ready.execute (ready : m.Ready x false) {s : Stmt} (here : x.Admits m.scope s.declared) :
    (execute m s).Keeps x := by
  cases s with
  | expression id e | print id e => exact ready.evaluating e _ rfl here here rfl
  | var id name initializer =>
    cases initializer with
    | none => exact ⟨false, rfl, ready.store.define _ here.name, ready.frames⟩
    | some e => exact ready.evaluating e _ rfl here here rfl
  | block id body =>
    have new : x.first ≤ (m.store.openScope m.scope).2 := ready.store.old
    exact ⟨false, rfl, ready.store.openScope m.scope, rfl, Extent.Admits.fresh new _, rfl,
      True.intro, ready.frames⟩
  | branch id condition yes no => cases no <;> exact ready.evaluating condition _ rfl here here rfl
  | loop id condition body => exact ready.evaluating condition _ rfl here here rfl
  | function decl => exact ⟨false, rfl, ready.store.identify.define _ here.name, ready.frames⟩
  | returns id keyword value =>
    cases value with
    | none => exact ⟨false, rfl, ready.store, ready.frames⟩
    | some e => exact ready.evaluating e _ rfl here here rfl
  | classDecl id name superclass methods =>
    cases superclass with
    | none => exact ready.defineClass none methods here
    | some use => exact ready.evaluating (.read use) _ rfl here here rfl

theorem Ready.resume {frame : Frame} (store : m.store.Keeps x)
    (frames : x.AdmitsFrames true m.scope (frame :: m.frames)) (a : Value)
    (assigned : ∀ id name, frame = .assign id name → ∀ d e, c.distances.lookup id = some d →
      m.store.scopes.ancestor m.scope d = .ok e →
      m.store.scopes.contains e name.lexeme = true ∨ x.first ≤ e) :
    (resume c m a frame).Keeps x := by
  obtain ⟨takes, here, rest⟩ := frames
  cases frame with
  | assign id name => exact Ready.assignTo ⟨store, rest⟩ a (assigned id name rfl)
  | operand | rightOperand => exact Ready.giveResult ⟨store, rest⟩ _
  | leftOperand left operator right =>
    exact Ready.evaluating right (.rightOperand a left operator right) ⟨store, rest⟩ rfl here here
      rfl
  | shortcut operator right =>
    simp only [Machine.resume]
    split
    · exact Ready.give ⟨store, rest⟩ a
    · exact ⟨true, ⟨rfl, here⟩, store, rest⟩
  | callee | argument => exact Ready.supply ⟨store, rest⟩ here _ _ _ _ _
  | property name => exact Ready.readProperty ⟨store, rest⟩ name a
  | target name value =>
    cases a with
    | object o =>
      exact Ready.evaluating value (.field o name) ⟨store, rest⟩ rfl here here rfl
    | _ => exact Ready.complain ⟨store, rest⟩ _ _
  | field o name => exact ⟨true, rfl, store.congr rfl, rest⟩
  | discard | print | giveBack => exact ⟨false, rfl, store, rest⟩
  | define name => exact ⟨false, rfl, store.define a here.name, rest⟩
  | choose yes no =>
    simp only [Machine.resume]
    cases no with
    | none =>
      split
      · exact ⟨false, ⟨rfl, here⟩, store, rest⟩
      · exact Ready.finish ⟨store, rest⟩
    | some no =>
      split
      · exact ⟨false, ⟨rfl, here.mono (List.subset_append_left _ _)⟩, store, rest⟩
      · exact ⟨false, ⟨rfl, here.mono (List.subset_append_right _ _)⟩, store, rest⟩
  | test condition body =>
    simp only [Machine.resume]
    split
    · exact ⟨false, ⟨rfl, here⟩, store, rfl, here, rest⟩
    · exact Ready.finish ⟨store, rest⟩
  | heritage superclass name methods =>
    cases a with
    | cls base => exact Ready.defineClass ⟨store, rest⟩ (some base) methods here
    | _ => exact Ready.complain ⟨store, rest⟩ _ _
  | construct o => exact Ready.give ⟨store, rest⟩ _
  | again | sequence | leaveBlock | leaveCall => cases takes

theorem Ready.leaveCall {scope : ScopeId} (store : m.store.Keeps x)
    (frames : x.AdmitsFrames true scope m.frames) (initialized : Option ScopeId) (a : Value) :
    (m.leaveCall scope initialized a).Keeps x := by
  have left : Ready x true { m with scope, depth := m.depth - 1 } := ⟨store, frames⟩
  cases initialized with
  | none => exact left.give a
  | some own => exact left.giveBound _

theorem Ready.proceed {frame : Frame} (store : m.store.Keeps x) (done : m.control = .done)
    (frames : x.AdmitsFrames false m.scope (frame :: m.frames)) : (m.proceed frame).Keeps x := by
  obtain ⟨takes, here, rest⟩ := frames
  have suits : ∀ e, m.control.Suits x e false := fun e => done ▸ rfl
  cases frame with
  | again condition body =>
    exact Ready.evaluating condition (.test condition body) ⟨store, rest⟩ rfl here here rfl
  | sequence body =>
    cases body with
    | nil => exact ⟨false, suits _, store, rest⟩
    | cons s others =>
      have now : x.Admits m.scope s.declared := by
        apply Extent.Admits.mono here
        exact List.subset_append_left _ _
      have later : x.Admits m.scope (others.flatMap Stmt.declared) := by
        apply Extent.Admits.mono here
        exact List.subset_append_right _ _
      exact ⟨false, ⟨rfl, now⟩, store, rfl, later, rest⟩
  | leaveBlock scope => exact ⟨false, suits scope, store, rest⟩
  | leaveCall scope initialized => exact Ready.leaveCall store rest initialized .nil
  | _ => cases takes

theorem Ready.passReturn {a : Value} {frame : Frame} (store : m.store.Keeps x)
    (returning : m.control = .returning a)
    (frames : x.AdmitsFrames false m.scope (frame :: m.frames)) :
    (m.passReturn a frame).Keeps x := by
  obtain ⟨takes, here, rest⟩ := frames
  have suits : ∀ e, m.control.Suits x e false := fun e => returning ▸ rfl
  cases frame with
  | leaveBlock scope => exact ⟨false, suits scope, store, rest⟩
  | leaveCall scope initialized => exact Ready.leaveCall store rest initialized a
  | again | sequence => exact ⟨false, suits _, store, rest⟩
  | _ => cases takes

theorem Ready.passFailure {f : Failure} {frame : Frame} (store : m.store.Keeps x)
    (failing : m.control = .failing f)
    (frames : x.AdmitsFrames takesValue m.scope (frame :: m.frames)) :
    (m.passFailure frame).Keeps x := by
  obtain ⟨takes, here, rest⟩ := frames
  have suits : ∀ e takesValue, m.control.Suits x e takesValue := fun e _ => failing ▸ True.intro
  cases frame with
  | leaveBlock scope | leaveCall scope initialized => exact ⟨_, suits scope _, store, rest⟩
  | _ => exact ⟨_, suits _ _, store, rest⟩

/-- A step keeps to the extent if what it assigns at a distance is bound there, or there is new. -/
theorem Keeps.step (keeps : m.Keeps x)
    (assigned : ∀ e name, m.Assigns c e name →
      m.store.scopes.contains e name = true ∨ x.first ≤ e) : (step c m).Keeps x := by
  obtain ⟨control, frames, scope, depth, store, printed, classes⟩ := m
  obtain ⟨takesValue, suits, bound, waits⟩ := keeps
  cases control with
  | evaluate e =>
    obtain ⟨rfl, here⟩ := suits
    exact Ready.evaluate ⟨bound, waits⟩ here e
  | execute s =>
    obtain ⟨rfl, here⟩ := suits
    exact Ready.execute ⟨bound, waits⟩ here
  | value a =>
    cases frames with
    | nil => exact ⟨takesValue, suits, bound, waits⟩
    | cons frame rest =>
      cases suits
      apply Ready.resume (m := ⟨.value a, rest, scope, depth, store, printed, classes⟩)
        bound waits
      intro id name here d e distance found
      exact assigned e name.lexeme (.intro rfl (congrArg (· :: rest) here) distance found)
  | done =>
    cases frames with
    | nil => exact ⟨takesValue, suits, bound, waits⟩
    | cons frame rest =>
      cases suits
      exact Ready.proceed (m := ⟨.done, rest, scope, depth, store, printed, classes⟩)
        bound rfl waits
  | returning a =>
    cases frames with
    | nil => exact ⟨takesValue, suits, bound, waits⟩
    | cons frame rest =>
      cases suits
      exact Ready.passReturn (m := ⟨.returning a, rest, scope, depth, store, printed, classes⟩)
        bound rfl waits
  | failing f =>
    cases frames with
    | nil => exact ⟨takesValue, suits, bound, waits⟩
    | cons frame rest =>
      exact Ready.passFailure (m := ⟨.failing f, rest, scope, depth, store, printed, classes⟩)
        bound rfl waits

theorem Keeps.run (keeps : m.Keeps x) (n : Nat)
    (assigned : ∀ k < n, (run c k m).Keeps x → ∀ e name, (Machine.run c k m).Assigns c e name →
      (Machine.run c k m).store.scopes.contains e name = true ∨ x.first ≤ e) :
    (run c n m).Keeps x := by
  induction n generalizing m with
  | zero => exact keeps
  | succ n ih =>
    unfold Machine.run
    cases ended : m.isOver with
    | true => exact keeps
    | false =>
      apply ih
      · exact keeps.step (assigned 0 (Nat.succ_pos n) keeps)
      · intro k sooner
        have later := assigned (k + 1) (Nat.succ_lt_succ sooner)
        rwa [Machine.run, ended] at later

variable {G : Occurrence → Prop} {shape : List Origin} {P : String → Prop}

/-- What has a distance is assigned inside of the global scope. Its scope binds it, unless it is
declared in the current scope and bound after its initializer. -/
theorem assigned_of_fits (resolves : Resolves c.distances G) (fits : m.Fits G shape) {e : ScopeId}
    {name : String} (assigns : m.Assigns c e name) :
    e ≠ Store.globals ∧ (m.store.scopes.contains e name = true ∨ e = m.scope) := by
  obtain ⟨control, frames, distance, found⟩ := assigns
  rename_i id token rest a d
  cases fits with
  | value p _ expects stands _ =>
    have waits := expects.frames
    rw [frames] at waits
    cases waits with
    | statement waits others => exact False.elim waits
    | expression announced waits others =>
      rw [resolves id token p.levels waits.2] at distance
      obtain ⟨k, located, rfl⟩ := Option.map_eq_some_iff.mp distance
      obtain ⟨level, there, named⟩ := locate_eq_some located
      obtain ⟨target, around, outward, enclosing, mirrored⟩ := Mirrors.outward stands there
      cases (Forest.ancestor_of_outward (d := k) outward).symm.trans found
      refine ⟨expects.store.ne_globals enclosing, ?_⟩
      by_cases here : k = 0
      · subst here
        exact .inr (Option.some.inj outward).symm
      · rw [if_neg here] at mirrored
        exact .inl (mirrored.bound token.lexeme named fun absent => nomatch absent)
  | evaluate _ at_phrase | execute _ _ at_phrase | done _ _ at_phrase | returning _ _ at_phrase
  | failing _ at_phrase => cases at_phrase.symm.trans control

theorem Keeps.step_naming (keeps : m.Keeps (.naming P)) (resolves : Resolves c.distances G)
    (fits : m.Fits G shape) : (Machine.step c m).Keeps (.naming P) := by
  apply keeps.step
  intro e name assigns
  exact .inr (Nat.pos_of_ne_zero (assigned_of_fits resolves fits assigns).1)

end Machine

end LoxMachine
