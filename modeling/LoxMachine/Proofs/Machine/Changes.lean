import Mathlib.Logic.Relation
import LoxMachine.Machine.Step

namespace LoxMachine

/-- One store operation. -/
inductive Store.Change : Store → Store → Prop
  | define (s : Store) (e : ScopeId) (name : String) (a : Value) : Change s (s.define e name a)
  | openScope (s : Store) (enclosing : ScopeId) : Change s (s.openScope enclosing).1
  | identify (s : Store) : Change s s.identify.1
  | instantiate (s : Store) (c : Class) : Change s (s.instantiate c).1
  | setField (s : Store) (o : Object) (name : String) (a : Value) : Change s (s.setField o name a)
  | callHost (s : Store) (f : Native) (arguments : List Value) : Change s (s.callHost f arguments).1

abbrev Store.Becomes : Store → Store → Prop := Relation.ReflTransGen Store.Change

open Store (Change)

theorem Store.becomes_bind (s : Store) (method : Method) (receiver : Value) :
    s.Becomes (s.bind method receiver).1 := by
  apply Relation.ReflTransGen.tail (b := (s.openScope method.scope).1.define
    (s.openScope method.scope).2 "this" receiver)
  · exact .tail (.single (.openScope s method.scope)) (.define _ _ _ _)
  · exact .identify _

namespace Machine

theorem becomes_bindParameters (s : Store) (e : ScopeId) (params : List Token)
    (arguments : List Value) : s.Becomes (bindParameters s e params arguments) := by
  induction params generalizing s arguments with
  | nil => exact .refl
  | cons param rest ih =>
    cases arguments with
    | nil => exact .refl
    | cons a others => exact .head (.define s e param.lexeme a) (ih _ others)

def Changes (m n : Machine) : Prop := m.store.Becomes n.store

theorem Changes.refl (m : Machine) : Changes m m := Relation.ReflTransGen.refl

variable (c : Setting) (m : Machine)

theorem changes_giveResult (result : Except Failure Value) : Changes m (m.giveResult result) := by
  cases result <;> exact Changes.refl m

theorem changes_giveBound (result : Except ScopeError Value) :
    Changes m (m.giveBound result) := by
  cases result <;> exact Changes.refl m

theorem changes_lookUp (id : NodeId) (name : Token) : Changes m (lookUp c m id name) := by
  unfold lookUp
  split
  · exact changes_giveBound m _
  · split <;> exact Changes.refl m

theorem changes_assignTo (id : NodeId) (name : Token) (a : Value) :
    Changes m (assignTo c m id name a) := by
  unfold assignTo
  split
  · split
    · exact .single (.define _ _ _ _)
    · exact Changes.refl m
  · split
    · exact .single (.define _ _ _ _)
    · exact Changes.refl m

theorem changes_giveBoundMethod (method : Method) (receiver : Value) :
    Changes m (m.giveBoundMethod method receiver) := m.store.becomes_bind method receiver

theorem changes_lookUpSuper (id : NodeId) (method : Token) :
    Changes m (lookUpSuper c m id method) := by
  unfold lookUpSuper
  split
  · exact Changes.refl m
  · split
    · exact Changes.refl m
    · split
      · exact Changes.refl m
      · split
        · split
          · exact changes_giveBoundMethod m _ _
          · exact Changes.refl m
        · exact Changes.refl m

theorem changes_enter (f : Closure) (arguments : List Value) :
    Changes m (enter c m f arguments) := by
  unfold enter
  split
  · exact Changes.refl m
  · exact .head (.openScope m.store f.scope) (becomes_bindParameters _ _ f.decl.params arguments)

theorem changes_instantiate (cls : Class) (arguments : List Value) :
    Changes m (instantiate c m cls arguments) := by
  unfold instantiate
  cases cls.initializer with
  | none => exact .single (.instantiate m.store cls)
  | some method =>
    let made := m.store.instantiate cls
    let bound := made.1.bind method (.object made.2)
    have entered := changes_enter c
      { m with store := bound.1, frames := .construct made.2 :: m.frames } bound.2 arguments
    exact .head (.instantiate m.store cls)
      ((made.1.becomes_bind method (.object made.2)).trans entered)

theorem changes_callHost (f : Native) (arguments : List Value) :
    Changes m (m.callHost f arguments) := by
  have called : m.store.Becomes (m.store.callHost f arguments).1 := .single (.callHost _ _ _)
  unfold callHost
  dsimp only
  split <;> exact called

theorem changes_call (callee : Expr) (paren : Token) (calleeValue : Value)
    (arguments : List Value) :
    Changes m (call c m callee paren calleeValue arguments) := by
  unfold call
  split
  · exact Changes.refl m
  · split
    · exact Changes.refl m
    · split
      · exact changes_enter c m _ arguments
      · exact changes_callHost m _ arguments
      · exact changes_instantiate c m _ arguments

theorem changes_supply (calleeValue : Value) (callee : Expr) (paren : Token) (given : List Value)
    (arguments : List Expr) : Changes m (supply c m calleeValue callee paren given arguments) := by
  cases arguments with
  | nil => exact changes_call c m callee paren calleeValue given.reverse
  | cons e rest => exact Changes.refl m

theorem changes_readProperty (name : Token) (a : Value) : Changes m (m.readProperty name a) := by
  unfold readProperty
  split
  · split
    · exact Changes.refl m
    · split
      · exact changes_giveBoundMethod m _ _
      · exact Changes.refl m
  · exact Changes.refl m

theorem changes_defineClass (name : Token) (superclass : Option Class)
    (methods : List FunctionDecl) : Changes m (m.defineClass name superclass methods) := by
  have named : m.store.Becomes (m.store.define m.scope name.lexeme .nil) :=
    .single (.define _ _ _ _)
  cases superclass with
  | none => exact (named.tail (.identify _)).tail (.define _ _ _ _)
  | some base =>
    have opened := named.tail (.openScope _ m.scope)
    exact ((opened.tail (.define _ _ "super" (.cls base))).tail (.identify _)).tail
      (.define _ _ _ _)

theorem changes_evaluate (e : Expr) : Changes m (evaluate c m e) := by
  cases e with
  | read use => exact changes_lookUp c m use.id use.name
  | this id keyword => exact changes_lookUp c m id keyword
  | super id keyword method => exact changes_lookUpSuper c m id method
  | _ => exact Changes.refl m

theorem changes_execute (s : Stmt) : Changes m (execute m s) := by
  cases s with
  | var id name initializer =>
    cases initializer with
    | none => exact .single (.define _ _ _ _)
    | some e => exact Changes.refl m
  | block id body => exact .single (.openScope _ _)
  | function decl =>
    have named : m.store.Becomes m.store.identify.1 := .single (.identify _)
    exact named.tail (.define _ _ _ _)
  | returns id keyword value => cases value <;> exact Changes.refl m
  | classDecl id name superclass methods =>
    cases superclass with
    | none => exact changes_defineClass m name none methods
    | some use => exact Changes.refl m
  | _ => exact Changes.refl m

theorem changes_leaveCall (scope : ScopeId) (initialized : Option ScopeId) (a : Value) :
    Changes m (m.leaveCall scope initialized a) := by
  cases initialized with
  | none => exact Changes.refl m
  | some e => exact changes_giveBound { m with scope, depth := m.depth - 1 } _

theorem changes_resume (a : Value) (frame : Frame) : Changes m (resume c m a frame) := by
  cases frame with
  | assign id name => exact changes_assignTo c m id name a
  | operand operator => exact changes_giveResult m _
  | rightOperand leftValue left operator right => exact changes_giveResult m _
  | callee callee paren arguments => exact changes_supply c m a callee paren [] arguments
  | argument calleeValue callee paren given rest =>
    exact changes_supply c m calleeValue callee paren (a :: given) rest
  | property name => exact changes_readProperty m name a
  | target name value => cases a <;> exact Changes.refl m
  | field o name => exact .single (.setField _ _ _ _)
  | define name => exact .single (.define _ _ _ _)
  | shortcut operator right =>
    simp only [resume]
    split <;> exact Changes.refl m
  | choose yes no =>
    simp only [resume]
    split
    · exact Changes.refl m
    · split <;> exact Changes.refl m
  | test condition body =>
    simp only [resume]
    split <;> exact Changes.refl m
  | heritage superclass name methods =>
    cases a with
    | cls base => exact changes_defineClass m name (some base) methods
    | _ => exact Changes.refl m
  | _ => exact Changes.refl m

theorem changes_proceed (frame : Frame) : Changes m (m.proceed frame) := by
  cases frame with
  | sequence rest => cases rest <;> exact Changes.refl m
  | leaveCall scope initialized => exact changes_leaveCall m scope initialized .nil
  | _ => exact Changes.refl m

theorem changes_passReturn (a : Value) (frame : Frame) : Changes m (m.passReturn a frame) := by
  cases frame with
  | leaveCall scope initialized => exact changes_leaveCall m scope initialized a
  | _ => exact Changes.refl m

theorem changes_passFailure (frame : Frame) : Changes m (m.passFailure frame) := by
  cases frame <;> exact Changes.refl m

theorem changes_step : Changes m (step c m) := by
  unfold step
  split
  · exact changes_evaluate c m _
  · exact changes_execute m _
  · rename_i a frame frames _ _
    exact changes_resume c { m with frames } a frame
  · rename_i frame frames _ _
    exact changes_proceed { m with frames } frame
  · rename_i a frame frames _ _
    exact changes_passReturn { m with frames } a frame
  · rename_i frame frames _ _
    exact changes_passFailure { m with frames } frame
  · exact Changes.refl m

theorem changes_run (n : Nat) : Changes m (run c n m) := by
  induction n generalizing m with
  | zero => exact Changes.refl m
  | succ n ih =>
    unfold run
    split
    · exact Changes.refl m
    · exact (changes_step c m).trans (ih (step c m))

end Machine

end LoxMachine
