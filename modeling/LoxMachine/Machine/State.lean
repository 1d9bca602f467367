import LoxMachine.Machine.Store
import LoxMachine.Machine.Failure
import LoxMachine.Scope.Static

namespace LoxMachine

/-- What is to be done with what comes out of a phrase. -/
inductive Frame where
  | assign (id : NodeId) (name : Token)
  | operand (operator : Token)
  | leftOperand (left : Expr) (operator : Token) (right : Expr)
  | rightOperand (leftValue : Value) (left : Expr) (operator : Token) (right : Expr)
  | shortcut (operator : Token) (right : Expr)
  | callee (callee : Expr) (paren : Token) (arguments : List Expr)
  | argument (calleeValue : Value) (callee : Expr) (paren : Token)
      (given : List Value) (arguments : List Expr)
  | property (name : Token)
  | target (name : Token) (value : Expr)
  | field (object : Object) (name : Token)
  | discard
  | print
  | define (name : Token)
  | choose (yes : Stmt) (no : Option Stmt)
  | test (condition : Expr) (body : Stmt)
  | again (condition : Expr) (body : Stmt)
  | giveBack
  | heritage (superclass : Token) (name : Token) (methods : List FunctionDecl)
  | sequence (rest : List Stmt)
  | leaveBlock (scope : ScopeId)
  /-- After a call, the scope of the caller is the current one again. An initializer gives back the
  object that its own scope names. -/
  | leaveCall (scope : ScopeId) (initialized : Option ScopeId)
  /-- After its initializer, an object is the value of the call of its class. -/
  | construct (object : Object)

/-- What a run is at. -/
inductive Control where
  | evaluate (e : Expr)
  | execute (s : Stmt)
  | value (v : Value)
  | done
  /-- A `return` looks for the call that it ends. -/
  | returning (v : Value)
  | failing (f : Failure)

/-- What a run looks up and does not change. -/
structure Setting where
  distances : Distances
  depthLimit : Nat

structure Machine where
  control : Control
  frames : List Frame
  scope : ScopeId
  depth : Nat
  store : Store
  /-- The printed lines, the last one first. -/
  printed : List String
  classes : List (String × Nat)

end LoxMachine
