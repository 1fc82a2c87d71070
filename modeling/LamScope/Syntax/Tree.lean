import LamScope.Token

/-!
# Syntax trees

Every expression and statement carries a node: a number that later passes key their results by,
and the span it was read from. There is no `for`: it is read as a block around a `while`.
-/
namespace LamScope

structure Node where
  id : Nat
  span : Span
deriving DecidableEq, Repr, Inhabited

inductive Literal where
  | number (value : Double)
  | string (contents : String)
  | bool (value : Bool)
  | nil
deriving DecidableEq, Repr

inductive BinaryOp where
  | add | sub | mul | div | eq | ne | lt | le | gt | ge
deriving DecidableEq, Repr

inductive LogicalOp where
  | and | or
deriving DecidableEq, Repr

inductive UnaryOp where
  | neg | not
deriving DecidableEq, Repr

inductive Expr where
  | literal (node : Node) (value : Literal)
  /-- The value of a variable. -/
  | read (node : Node) (name : Word)
  | assign (node : Node) (name : Word) (value : Expr)
  | binary (node : Node) (op : BinaryOp) (left right : Expr)
  | logical (node : Node) (op : LogicalOp) (left right : Expr)
  | unary (node : Node) (op : UnaryOp) (operand : Expr)
  /-- An expression in parentheses. -/
  | group (node : Node) (inner : Expr)
  | call (node : Node) (callee : Expr) (args : List Expr)
  | property (node : Node) (object : Expr) (name : Word)
  | setProperty (node : Node) (object : Expr) (name : Word) (value : Expr)
deriving Repr

namespace Expr

def node : Expr → Node
  | literal n _ | read n _ | assign n _ _ | binary n _ _ _ | logical n _ _ _ | unary n _ _
  | group n _ | call n _ _ | property n _ _ | setProperty n _ _ _ => n

def span (e : Expr) : Span := e.node.span

end Expr

mutual

inductive Stmt where
  | block (node : Node) (body : List Stmt)
  | var (node : Node) (name : Word) (init : Option Expr)
  | function (node : Node) (decl : Callable)
  | expr (node : Node) (value : Expr)
  | print (node : Node) (value : Expr)
  | ifThen (node : Node) (cond : Expr) (body : Stmt)
  | ifThenElse (node : Node) (cond : Expr) (body : Stmt) (otherwise : Stmt)
  | ret (node : Node) (keyword : Word) (value : Option Expr)
  | loop (node : Node) (cond : Expr) (body : Stmt)
  | classDef (node : Node) (name : Word) (methods : List Callable)

/-- A function or a method. -/
structure Callable where
  name : Word
  params : List Word
  body : List Stmt

end

def Callable.arity (c : Callable) : Nat := c.params.length

namespace Stmt

def node : Stmt → Node
  | block n _ | var n _ _ | function n _ | expr n _ | print n _ | ifThen n _ _
  | ifThenElse n _ _ _ | ret n _ _ | loop n _ _ | classDef n _ _ => n

def span (s : Stmt) : Span := s.node.span

end Stmt

end LamScope
