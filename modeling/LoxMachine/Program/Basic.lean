import LoxMachine.Token.Basic

namespace LoxMachine

abbrev NodeId := Nat

inductive Literal where
  | nil
  | bool (b : Bool)
  | number (n : Number)
  | string (s : String)
deriving DecidableEq

structure Variable where
  id : NodeId
  name : Token
deriving DecidableEq

inductive Expr where
  | literal (id : NodeId) (value : Literal)
  | read (use : Variable)
  | assign (id : NodeId) (name : Token) (value : Expr)
  | unary (id : NodeId) (operator : Token) (right : Expr)
  | binary (id : NodeId) (left : Expr) (operator : Token) (right : Expr)
  | logical (id : NodeId) (left : Expr) (operator : Token) (right : Expr)
  | grouping (id : NodeId) (inner : Expr)
  | call (id : NodeId) (callee : Expr) (paren : Token) (arguments : List Expr)
  | get (id : NodeId) (object : Expr) (name : Token)
  | set (id : NodeId) (object : Expr) (name : Token) (value : Expr)
  | this (id : NodeId) (keyword : Token)
  | super (id : NodeId) (keyword : Token) (method : Token)

mutual

inductive Stmt where
  | expression (id : NodeId) (e : Expr)
  | print (id : NodeId) (e : Expr)
  | var (id : NodeId) (name : Token) (initializer : Option Expr)
  | block (id : NodeId) (body : List Stmt)
  | branch (id : NodeId) (condition : Expr) (yes : Stmt) (no : Option Stmt)
  | loop (id : NodeId) (condition : Expr) (body : Stmt)
  | function (decl : FunctionDecl)
  | returns (id : NodeId) (keyword : Token) (value : Option Expr)
  | classDecl (id : NodeId) (name : Token) (superclass : Option Variable) (methods : List FunctionDecl)

inductive FunctionDecl where
  | mk (id : NodeId) (name : Token) (params : List Token) (body : List Stmt)

end

namespace FunctionDecl

def id : FunctionDecl → NodeId
  | mk id _ _ _ => id

def name : FunctionDecl → Token
  | mk _ name _ _ => name

def params : FunctionDecl → List Token
  | mk _ _ params _ => params

def body : FunctionDecl → List Stmt
  | mk _ _ _ body => body

end FunctionDecl

def Expr.id : Expr → NodeId
  | read use => use.id
  | literal id _ | assign id _ _ | unary id _ _ | binary id _ _ _ | logical id _ _ _
  | grouping id _ | call id _ _ _ | get id _ _ | set id _ _ _ | this id _ | super id _ _ => id

def Stmt.id : Stmt → NodeId
  | function decl => decl.id
  | expression id _ | print id _ | var id _ _ | block id _ | branch id _ _ _ | loop id _ _
  | returns id _ _ | classDecl id _ _ _ => id

end LoxMachine
