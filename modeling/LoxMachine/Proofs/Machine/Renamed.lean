import LoxMachine.Machine.Outcome
import LoxMachine.Proofs.Machine.Changes
import LoxMachine.Proofs.Scope.Renamed
import LoxMachine.Proofs.Value.Renamed

namespace LoxMachine

section States

variable (f : NodeId → NodeId)

def Frame.rename : Frame → Frame
  | .assign id name => .assign (f id) name
  | .operand operator => .operand operator
  | .leftOperand left operator right => .leftOperand (left.rename f) operator (right.rename f)
  | .rightOperand leftValue left operator right =>
    .rightOperand (leftValue.rename f) (left.rename f) operator (right.rename f)
  | .shortcut operator right => .shortcut operator (right.rename f)
  | .callee called paren arguments => .callee (called.rename f) paren (exprsRename f arguments)
  | .argument calleeValue called paren given arguments =>
    .argument (calleeValue.rename f) (called.rename f) paren (given.map (·.rename f))
      (exprsRename f arguments)
  | .property name => .property name
  | .target name value => .target name (value.rename f)
  | .field object name => .field (object.rename f) name
  | .discard => .discard
  | .print => .print
  | .define name => .define name
  | .choose yes no => .choose (yes.rename f) (no.map (·.rename f))
  | .test condition body => .test (condition.rename f) (body.rename f)
  | .again condition body => .again (condition.rename f) (body.rename f)
  | .giveBack => .giveBack
  | .heritage superclass name methods => .heritage superclass name (methodsRename f methods)
  | .sequence rest => .sequence (stmtsRename f rest)
  | .leaveBlock scope => .leaveBlock scope
  | .leaveCall scope initialized => .leaveCall scope initialized
  | .construct object => .construct (object.rename f)

def Failure.rename : Failure → Failure
  | .noDistance id => .noDistance (f id)
  | failure => failure

def Control.rename : Control → Control
  | .evaluate e => .evaluate (e.rename f)
  | .execute s => .execute (s.rename f)
  | .value v => .value (v.rename f)
  | .done => .done
  | .returning v => .returning (v.rename f)
  | .failing failure => .failing (failure.rename f)

def Machine.rename (m : Machine) : Machine :=
  { m with
    control := m.control.rename f
    frames := m.frames.map (·.rename f)
    store := m.store.rename f }

def Outcome.rename : Outcome → Outcome
  | .value v => .value (v.rename f)
  | .done => .done
  | .returned v => .returned (v.rename f)
  | .failed failure => .failed (failure.rename f)
  | .unfinished => .unfinished

/-- The uses of the first setting have the same distances in the second one under their new
numbers. -/
structure Setting.Renamed (c c' : Setting) : Prop where
  lookup : ∀ id, c'.distances.lookup (f id) = c.distances.lookup id
  depthLimit : c'.depthLimit = c.depthLimit

end States

theorem Store.Change.discreet {s t : Store} (change : s.Change t) (discreet : s.Discreet) :
    t.Discreet := by
  cases change with
  | define | openScope | identify | instantiate | setField => exact discreet
  | callHost g arguments => exact discreet.callHost_fst g arguments

theorem Machine.Changes.discreet {m n : Machine} (changes : m.Changes n)
    (discreet : m.store.Discreet) : n.store.Discreet := by
  have becomes : m.store.Becomes n.store := changes
  generalize n.store = last at becomes
  induction becomes with
  | refl => exact discreet
  | tail _ change ih => exact change.discreet ih

section Operators

variable {f : NodeId → NodeId}

def resultRename (f : NodeId → NodeId) : Except Failure Value → Except Failure Value
  | .ok a => .ok (a.rename f)
  | .error failure => .error (failure.rename f)

theorem numberResult_rename (result : Except Number.RangeError Number) :
    resultRename f (numberResult result) = numberResult result := by
  cases result <;> rfl

theorem applyPrefix_rename (operator : Token) (a : Value) :
    applyPrefix operator (a.rename f) = resultRename f (applyPrefix operator a) := by
  have text := a.text_mapCode (keepsSignature_rename f)
  unfold applyPrefix
  rw [Value.isTruthy_mapCode]
  split
  · rfl
  · cases a with
    | number n => exact (numberResult_rename _).symm
    | _ => exact congrArg (fun words => (.error (Failure.against operator
        (Complaint.negatedNonNumber words)) : Except Failure Value)) text

theorem applyNumbers_rename (form : Unit → String) (operator : Token) (a b : Number) :
    resultRename f (applyNumbers form operator a b) = applyNumbers form operator a b := by
  unfold applyNumbers
  split
  case h_4 =>
    split
    · rfl
    · exact numberResult_rename _
  case h_5 | h_6 | h_7 | h_8 | h_9 => rfl
  all_goals exact numberResult_rename _

theorem applyBinary_rename (form : Unit → String) (operator : Token) (a b : Value) :
    applyBinary form operator (a.rename f) (b.rename f) =
      resultRename f (applyBinary form operator a b) := by
  have texts := Value.text_mapCode (keepsSignature_rename f)
  unfold applyBinary
  rw [texts, texts, Value.isEqual_mapCode]
  cases operator.kind with
  | symbol s =>
    cases s <;> cases a <;> cases b <;> first | rfl | exact (applyNumbers_rename _ _ _ _).symm
  | _ => cases a <;> cases b <;> first | rfl | exact (applyNumbers_rename _ _ _ _).symm

end Operators

namespace Machine

variable {f : NodeId → NodeId} {c c' : Setting} {m : Machine}

theorem giveResult_rename (result : Except Failure Value) :
    (m.rename f).giveResult (resultRename f result) = (m.giveResult result).rename f := by
  cases result <;> rfl

theorem giveBound_rename (result : Except ScopeError Value) :
    (m.rename f).giveBound (result.map (·.rename f)) = (m.giveBound result).rename f := by
  cases result <;> rfl

theorem lookUp_rename (renamed : c.Renamed f c') (id : NodeId) (name : Token) :
    lookUp c' (m.rename f) (f id) name = (lookUp c m id name).rename f := by
  unfold lookUp
  rw [renamed.lookup]
  cases c.distances.lookup id with
  | some d =>
    rw [← giveBound_rename, ← Forest.getAt_rename]
    rfl
  | none =>
    have found : (m.rename f).store.scopes.get Store.globals name.lexeme =
        (m.store.scopes.get Store.globals name.lexeme).map (·.rename f) :=
      m.store.scopes.get_rename f Store.globals name.lexeme
    rw [found]
    cases m.store.scopes.get Store.globals name.lexeme <;> rfl

theorem assignTo_rename (renamed : c.Renamed f c') (id : NodeId) (name : Token) (a : Value) :
    assignTo c' (m.rename f) (f id) name (a.rename f) = (assignTo c m id name a).rename f := by
  have defined (e : ScopeId) : (m.rename f).store.define e name.lexeme (a.rename f) =
      (m.store.define e name.lexeme a).rename f := m.store.define_rename f e name.lexeme a
  unfold assignTo
  rw [renamed.lookup]
  cases c.distances.lookup id with
  | some d =>
    have target : (m.rename f).store.scopes.ancestor (m.rename f).scope d =
        m.store.scopes.ancestor m.scope d := m.store.scopes.ancestor_rename f m.scope d
    simp only [target, defined]
    cases m.store.scopes.ancestor m.scope d <;> rfl
  | none =>
    have bound : (m.rename f).store.scopes.contains Store.globals name.lexeme =
        m.store.scopes.contains Store.globals name.lexeme :=
      m.store.scopes.contains_rename f Store.globals name.lexeme
    simp only [bound, defined]
    split <;> rfl

theorem giveBoundMethod_rename (method : Method) (receiver : Value) :
    (m.rename f).giveBoundMethod (method.rename f) (receiver.rename f) =
      (m.giveBoundMethod method receiver).rename f := by
  have made : (m.rename f).store.bind (method.rename f) (receiver.rename f) =
      ((m.store.bind method receiver).1.rename f, (m.store.bind method receiver).2.rename f) :=
    m.store.bind_rename f method receiver
  unfold giveBoundMethod
  rw [made]
  rfl

theorem lookUpSuper_rename (renamed : c.Renamed f c') (id : NodeId) (method : Token) :
    lookUpSuper c' (m.rename f) (f id) method = (lookUpSuper c m id method).rename f := by
  have found (d : Int) (name : String) : (m.rename f).store.scopes.getAt (m.rename f).scope d name =
      (m.store.scopes.getAt m.scope d name).map (·.rename f) :=
    m.store.scopes.getAt_rename f m.scope d name
  unfold lookUpSuper
  rw [renamed.lookup]
  cases c.distances.lookup id with
  | none => rfl
  | some d =>
    simp only [found]
    cases m.store.scopes.getAt m.scope d "super" with
    | error e => rfl
    | ok base =>
      cases m.store.scopes.getAt m.scope (d - 1) "this" with
      | error e => rfl
      | ok receiver =>
        cases base with
        | cls base =>
          simp only [Except.map, Value.mapCode, Class.findMethod_mapCode]
          cases base.findMethod method.lexeme with
          | some found => exact giveBoundMethod_rename found receiver
          | none => rfl
        | _ => rfl

theorem evaluate_rename (renamed : c.Renamed f c') (e : Expr) :
    evaluate c' (m.rename f) (e.rename f) = (evaluate c m e).rename f := by
  cases e with
  | literal id value =>
    exact congrArg (m.rename f).give (Value.mapCode_toValue _ value).symm
  | read use => exact lookUp_rename renamed use.id use.name
  | this id keyword => exact lookUp_rename renamed id keyword
  | super id keyword method => exact lookUpSuper_rename renamed id method
  | _ => rfl

theorem bindParameters_rename (s : Store) (e : ScopeId) (params : List Token)
    (arguments : List Value) :
    bindParameters (s.rename f) e params (arguments.map (·.rename f)) =
      (bindParameters s e params arguments).rename f := by
  induction params generalizing s arguments with
  | nil => rfl
  | cons param rest ih =>
    cases arguments with
    | nil => rfl
    | cons a others =>
      rw [List.map_cons, bindParameters, bindParameters, Store.define_rename]
      exact ih (s.define e param.lexeme a) others

theorem enter_rename (renamed : c.Renamed f c') (g : Closure) (arguments : List Value) :
    enter c' (m.rename f) (g.rename f) (arguments.map (·.rename f)) =
      (enter c m g arguments).rename f := by
  have opened : (m.rename f).store.openScope g.scope =
      ((m.store.openScope g.scope).1.rename f, (m.store.openScope g.scope).2) :=
    m.store.openScope_rename f g.scope
  by_cases deep : c.depthLimit ≤ m.depth
  · have deep' : c'.depthLimit ≤ (m.rename f).depth := renamed.depthLimit ▸ deep
    rw [enter, if_pos deep', enter, if_pos deep]
    rfl
  · have room : ¬ c'.depthLimit ≤ (m.rename f).depth := renamed.depthLimit ▸ deep
    rw [enter, if_neg room, enter, if_neg deep]
    simp only [Closure.mapCode, opened, FunctionDecl.params_rename, FunctionDecl.body_rename,
      bindParameters_rename]
    rfl

theorem instantiate_rename (renamed : c.Renamed f c') (cls : Class) (arguments : List Value) :
    instantiate c' (m.rename f) (cls.rename f) (arguments.map (·.rename f)) =
      (instantiate c m cls arguments).rename f := by
  have made : (m.rename f).store.instantiate (cls.rename f) =
      ((m.store.instantiate cls).1.rename f, (m.store.instantiate cls).2.rename f) :=
    m.store.instantiate_rename f cls
  unfold instantiate
  rw [made, Class.initializer_mapCode]
  cases cls.initializer with
  | none => rfl
  | some method =>
    have bound := (m.store.instantiate cls).1.bind_rename f method
      (.object (m.store.instantiate cls).2)
    simp only [Value.mapCode] at bound
    simp only [Option.map_some, bound]
    let first := (m.store.instantiate cls).1.bind method (.object (m.store.instantiate cls).2)
    exact enter_rename (m := { m with
      store := first.1, frames := .construct (m.store.instantiate cls).2 :: m.frames }) renamed
      first.2 arguments

theorem callHost_rename (discreet : m.store.Discreet) (g : Native) (arguments : List Value) :
    (m.rename f).callHost g (arguments.map (·.rename f)) = (m.callHost g arguments).rename f := by
  have called : (m.rename f).store.callHost g (arguments.map (·.rename f)) =
      ((m.store.callHost g arguments).1.rename f, (m.store.callHost g arguments).2) :=
    discreet.callHost_rename g arguments
  have known := discreet.callHost_snd g arguments
  unfold callHost
  rw [called]
  dsimp only
  cases reply : (m.store.callHost g arguments).2 with
  | literal value =>
    exact congrArg (give _) (Value.mapCode_toValue _ value).symm
  | argument index =>
    have same : (arguments.map (·.rename f))[index]?.getD .nil =
        (arguments[index]?.getD .nil).rename f := by
      rw [List.getElem?_map]
      cases arguments[index]? <;> rfl
    simp only [same]
    rfl
  | recalled choose links => exact congrArg (give _) (Store.recollect_rename (reply ▸ known))
  | failure text line file => rfl

theorem call_rename (renamed : c.Renamed f c') (discreet : m.store.Discreet) (callee : Expr)
    (paren : Token) (calleeValue : Value) (arguments : List Value) :
    call c' (m.rename f) (callee.rename f) paren (calleeValue.rename f)
      (arguments.map (·.rename f)) = (call c m callee paren calleeValue arguments).rename f := by
  unfold call
  rw [Value.callable_mapCode, Value.text_mapCode (keepsSignature_rename f), Expr.form_rename,
    List.length_map]
  cases calleeValue.callable? with
  | none => rfl
  | some target =>
    simp only [Option.map_some, Callable.arity_mapCode (keepsSignature_rename f)]
    split
    · rfl
    · cases target with
      | closure g => exact enter_rename renamed g arguments
      | native g => exact callHost_rename discreet g arguments
      | cls cls => exact instantiate_rename renamed cls arguments

theorem supply_rename (renamed : c.Renamed f c') (discreet : m.store.Discreet) (callee : Expr)
    (paren : Token) (calleeValue : Value) (given : List Value) (arguments : List Expr) :
    supply c' (m.rename f) (calleeValue.rename f) (callee.rename f) paren (given.map (·.rename f))
      (exprsRename f arguments) =
        (supply c m calleeValue callee paren given arguments).rename f := by
  cases arguments with
  | nil =>
    have called := call_rename renamed discreet callee paren calleeValue given.reverse
    rwa [List.map_reverse] at called
  | cons e rest => rfl

theorem readProperty_rename (name : Token) (a : Value) :
    (m.rename f).readProperty name (a.rename f) = (m.readProperty name a).rename f := by
  cases a with
  | object o =>
    have fields : (m.rename f).store.fieldsOf (o.rename f) = (m.store.fieldsOf o).rename f :=
      m.store.fieldsOf_rename f o
    have method : (o.rename f).cls.findMethod name.lexeme =
        (o.cls.findMethod name.lexeme).map (·.rename f) := o.cls.findMethod_mapCode _ name.lexeme
    unfold readProperty
    simp only [Value.mapCode, fields, Table.rename, Table.get?_recode_id, method]
    cases (m.store.fieldsOf o).get? name.lexeme with
    | some b => rfl
    | none =>
      cases o.cls.findMethod name.lexeme with
      | some method => exact giveBoundMethod_rename method (.object o)
      | none => rfl
  | _ => rfl

theorem methodTable_rename (scope : ScopeId) (methods : List FunctionDecl) :
    methodTable scope (methodsRename f methods) =
      (methodTable scope methods).recode id (·.rename f) := by
  have general (table : Table Method) :
      (methodsRename f methods).foldl (fun table decl =>
        table.put decl.name.lexeme ⟨decl, scope, decl.name.lexeme == "init"⟩)
          (table.recode id (·.rename f)) =
        (methods.foldl (fun table decl =>
          table.put decl.name.lexeme ⟨decl, scope, decl.name.lexeme == "init"⟩) table).recode id
          (·.rename f) := by
    induction methods generalizing table with
    | nil => rfl
    | cons d rest ih =>
      have put := Table.put_recode_id (f := Method.rename f) table d.name.lexeme
        ⟨d, scope, d.name.lexeme == "init"⟩
      simp only [methodsRename, List.foldl_cons, FunctionDecl.name_rename]
      rw [← ih, ← put]
      rfl
  exact general []

theorem defineFunction_rename (decl : FunctionDecl) :
    (m.rename f).defineFunction (decl.rename f) = (m.defineFunction decl).rename f := by
  have defined := m.store.identify.1.define_rename f m.scope decl.name.lexeme
    (.closure ⟨m.store.identify.2, decl, m.scope, false⟩)
  unfold defineFunction
  rw [FunctionDecl.name_rename]
  exact congrArg (fun store => { m.rename f with control := .done, store }) defined

theorem defineClass_rename (name : Token) (superclass : Option Class)
    (methods : List FunctionDecl) :
    (m.rename f).defineClass name (superclass.map (·.rename f)) (methodsRename f methods) =
      (m.defineClass name superclass methods).rename f := by
  have announced : (m.rename f).store.define m.scope name.lexeme .nil =
      (m.store.define m.scope name.lexeme .nil).rename f :=
    m.store.define_rename f m.scope name.lexeme .nil
  have scope : (m.rename f).scope = m.scope := rfl
  have made (s : Store) (around : ScopeId) := s.identify.1.define_rename f m.scope name.lexeme
    (.cls ⟨s.identify.2, name.lexeme, superclass, methodTable around methods⟩)
  have sized (table : Table Method) :
      List.length (table.recode id (·.rename f)) = List.length table := List.length_map _
  simp only [Value.mapCode, Class.mapCode_mk] at made
  unfold defineClass
  rw [scope, announced]
  let named := m.store.define m.scope name.lexeme .nil
  cases superclass with
  | none =>
    have bound := made named m.scope
    simp only [Option.map_none] at bound
    simp only [Option.map_none, Store.identify_rename, methodTable_rename, bound, sized, named]
    rfl
  | some base =>
    have inside := (named.openScope m.scope).1.define_rename f (named.openScope m.scope).2 "super"
      (.cls base)
    have bound := made ((named.openScope m.scope).1.define (named.openScope m.scope).2 "super"
      (.cls base)) (named.openScope m.scope).2
    simp only [Option.map_some, Value.mapCode] at bound inside
    simp only [Option.map_some, Store.openScope_rename, inside, Store.identify_rename,
      methodTable_rename, bound, sized, named]
    rfl

theorem execute_rename (s : Stmt) : (m.rename f).execute (s.rename f) = (m.execute s).rename f := by
  cases s with
  | var id name initializer =>
    cases initializer with
    | none =>
      have defined := m.store.define_rename f m.scope name.lexeme .nil
      exact congrArg (fun store => { m.rename f with control := .done, store }) defined
    | some e => rfl
  | block id body =>
    have opened : (m.rename f).store.openScope m.scope =
        ((m.store.openScope m.scope).1.rename f, (m.store.openScope m.scope).2) :=
      m.store.openScope_rename f m.scope
    have scope : (m.rename f).scope = m.scope := rfl
    simp only [Stmt.rename, execute, scope, opened]
    rfl
  | branch id condition yes no => cases no <;> rfl
  | function decl => exact defineFunction_rename decl
  | returns id keyword value => cases value <;> rfl
  | classDecl id name superclass methods =>
    cases superclass with
    | none => exact defineClass_rename name none methods
    | some use => rfl
  | _ => rfl

theorem leaveCall_rename (scope : ScopeId) (initialized : Option ScopeId) (a : Value) :
    (m.rename f).leaveCall scope initialized (a.rename f) =
      (m.leaveCall scope initialized a).rename f := by
  cases initialized with
  | none => rfl
  | some e =>
    have found : (m.rename f).store.scopes.get e "this" =
        (m.store.scopes.get e "this").map (·.rename f) := m.store.scopes.get_rename f e "this"
    simp only [leaveCall, found]
    exact giveBound_rename (m := { m with scope, depth := m.depth - 1 }) _

theorem resume_rename (renamed : c.Renamed f c') (discreet : m.store.Discreet) (a : Value)
    (frame : Frame) :
    resume c' (m.rename f) (a.rename f) (frame.rename f) = (resume c m a frame).rename f := by
  cases frame with
  | assign id name => exact assignTo_rename renamed id name a
  | operand operator =>
    simp only [Frame.rename, resume, applyPrefix_rename]
    exact giveResult_rename _
  | rightOperand leftValue left operator right =>
    have form : (fun _ : Unit => (Expr.binary 0 (left.rename f) operator (right.rename f)).form) =
        fun _ => (Expr.binary 0 left operator right).form := by
      funext
      simp only [Expr.form, Expr.form_rename]
    simp only [Frame.rename, resume, form, applyBinary_rename]
    exact giveResult_rename _
  | shortcut operator right =>
    simp only [Frame.rename, resume, Value.isTruthy_mapCode]
    split <;> rfl
  | callee callee paren arguments =>
    exact supply_rename renamed discreet callee paren a [] arguments
  | argument calleeValue callee paren given rest =>
    exact supply_rename renamed discreet callee paren calleeValue (a :: given) rest
  | property name => exact readProperty_rename name a
  | target name value => cases a <;> rfl
  | field o name =>
    have set := m.store.setField_rename f o name.lexeme a
    exact congrArg (fun store => { m.rename f with control := .value (a.rename f), store }) set
  | print =>
    have text := a.text_mapCode (keepsSignature_rename f)
    exact congrArg
      (fun text => { m.rename f with control := .done, printed := text :: m.printed }) text
  | define name =>
    have defined := m.store.define_rename f m.scope name.lexeme a
    exact congrArg (fun store => { m.rename f with control := .done, store }) defined
  | choose yes no =>
    simp only [Frame.rename, resume, Value.isTruthy_mapCode]
    split
    · rfl
    · cases no <;> rfl
  | test condition body =>
    simp only [Frame.rename, resume, Value.isTruthy_mapCode]
    split <;> rfl
  | heritage superclass name methods =>
    cases a with
    | cls base => exact defineClass_rename name (some base) methods
    | _ => rfl
  | _ => rfl

theorem proceed_rename (frame : Frame) :
    (m.rename f).proceed (frame.rename f) = (m.proceed frame).rename f := by
  cases frame with
  | sequence rest => cases rest <;> rfl
  | leaveCall scope initialized => exact leaveCall_rename scope initialized .nil
  | _ => rfl

theorem passReturn_rename (a : Value) (frame : Frame) :
    (m.rename f).passReturn (a.rename f) (frame.rename f) = (m.passReturn a frame).rename f := by
  cases frame with
  | leaveCall scope initialized => exact leaveCall_rename scope initialized a
  | _ => rfl

theorem passFailure_rename (frame : Frame) :
    (m.rename f).passFailure (frame.rename f) = (m.passFailure frame).rename f := by
  cases frame <;> rfl

theorem step_rename (renamed : c.Renamed f c') (discreet : m.store.Discreet) :
    step c' (m.rename f) = (step c m).rename f := by
  obtain ⟨control, frames, scope, depth, store, printed, classes⟩ := m
  cases control with
  | evaluate e => exact evaluate_rename renamed e
  | execute s => exact execute_rename s
  | value a =>
    cases frames with
    | nil => rfl
    | cons frame rest =>
      let base : Machine := ⟨.value a, rest, scope, depth, store, printed, classes⟩
      exact resume_rename (m := base) renamed discreet a frame
  | done =>
    cases frames with
    | nil => rfl
    | cons frame rest =>
      let base : Machine := ⟨.done, rest, scope, depth, store, printed, classes⟩
      exact proceed_rename (m := base) frame
  | returning a =>
    cases frames with
    | nil => rfl
    | cons frame rest =>
      let base : Machine := ⟨.returning a, rest, scope, depth, store, printed, classes⟩
      exact passReturn_rename (m := base) a frame
  | failing failure =>
    cases frames with
    | nil => rfl
    | cons frame rest =>
      let base : Machine := ⟨.failing failure, rest, scope, depth, store, printed, classes⟩
      exact passFailure_rename (m := base) frame

theorem isOver_rename : (m.rename f).isOver = m.isOver := by
  obtain ⟨control, frames, scope, depth, store, printed, classes⟩ := m
  cases control <;> cases frames <;> rfl

theorem run_rename (renamed : c.Renamed f c') (discreet : m.store.Discreet) (n : Nat) :
    run c' n (m.rename f) = (run c n m).rename f := by
  induction n generalizing m with
  | zero => rfl
  | succ n ih =>
    rw [run, run, isOver_rename]
    split
    · rfl
    · rw [step_rename renamed discreet]
      exact ih ((changes_step c m).discreet discreet)

theorem outcome_rename : (m.rename f).outcome = m.outcome.rename f := by
  obtain ⟨control, frames, scope, depth, store, printed, classes⟩ := m
  cases control <;> cases frames <;> rfl

end Machine

end LoxMachine
