import LamScope.Scope.Walk
import LamScope.Syntax.Tree

/-!
# Resolving a program

The walk over a program goes through statements and expressions in the order in which they run.
Every expression and statement it enters is one level deeper than the one around it. The walk
counts the levels in its surroundings, and where it would enter one more than the limit it stops.
A run of operators, calls and properties that continue one another to the left counts as one level:
its length follows the length of the text, not its nesting.

Steps are put together in the same way whether a walk lists its events or tells a listener of them.
-/
namespace LamScope

namespace Walk
variable {W : Type} [Walking W]

/-- One after the other. -/
def each {α : Type} (f : α → W) : List α → W
  | [] => Walking.step skip
  | a :: as => f a ++ each f as

/-- Walks to the head of a run of operators, calls and properties, and from there on back out,
`after` last. `enter` walks whatever lies one level deeper. -/
def chain (enter : Expr → W) : Expr → W → W
  | .binary _ _ left right, after => chain enter left (enter right ++ after)
  | .logical _ _ left right, after => chain enter left (enter right ++ after)
  | .call _ callee args, after => chain enter callee (each enter args ++ after)
  | .property _ object _, after => chain enter object after
  | head, after => enter head ++ after

/-- The inside of an expression. A property is looked up when the program runs, so its name is
not resolved. -/
def insideExpr (enter : Expr → W) : Expr → W
  | .literal .. => Walking.step skip
  | .read node name => Walking.step (readName node.id name)
  | .assign node name value =>
      enter value ++ Walking.step (atLine name.line) ++ Walking.step (recordName node.id name)
  | .unary _ _ operand => enter operand
  | .group _ inner => enter inner
  | .setProperty _ object _ value => enter value ++ enter object
  | .binary _ _ left right => chain enter left (enter right)
  | .logical _ _ left right => chain enter left (enter right)
  | .call _ callee args => chain enter callee (each enter args)
  | .property _ object _ => chain enter object (Walking.step skip)

def optional (enter : Expr → W) : Option Expr → W
  | none => Walking.step skip
  | some e => enter e

/-- Parameters and body share one frame. -/
def callable (enter : Stmt → W) (kind : Enclosure) (decl : Callable) : W :=
  Walking.inCallable kind (Walking.inFrame
    (each (fun p => Walking.step (declare p) ++ Walking.step (define p)) decl.params
      ++ each enter decl.body))

/-- The inside of a statement. A function is defined before its body, so that it can call
itself; a variable only after its initialiser. -/
def insideStmt (enterExpr : Expr → W) (enter : Stmt → W) : Stmt → W
  | .block _ body => Walking.inFrame (each enter body)
  | .var _ name init =>
      Walking.step (declare name) ++ optional enterExpr init ++ Walking.step (define name)
  | .function _ decl =>
      Walking.step (declare decl.name) ++ Walking.step (define decl.name)
        ++ callable enter .function decl
  | .expr _ value => enterExpr value
  | .print _ value => enterExpr value
  | .ifThen _ cond body => enterExpr cond ++ enter body
  | .ifThenElse _ cond body otherwise => enterExpr cond ++ enter body ++ enter otherwise
  | .ret _ keyword value => Walking.step (checkReturn keyword) ++ optional enterExpr value
  | .loop _ cond body => enterExpr cond ++ enter body
  | .classDef _ name methods =>
      Walking.step (declare name) ++ Walking.step (define name)
        ++ each (callable enter .method) methods

end Walk

namespace Walking
variable {W : Type} [Walking W]

/-- Walks an expression one level deeper. Going inwards takes one of the steps allowed; when there
are more of them than levels, it is the depth that stops the walk. -/
def expr (limit : Nat) : (steps : Nat) → Expr → W
  | 0, e => step (Walk.stop limit e.span)
  | steps + 1, e => descend limit e.span (Walk.insideExpr (expr limit steps) e)

/-- Walks a statement one level deeper. -/
def stmt (limit : Nat) : (steps : Nat) → Stmt → W
  | 0, s => step (Walk.stop limit s.span)
  | steps + 1, s => descend limit s.span (Walk.insideStmt (expr limit steps) (stmt limit steps) s)

/-- Walks top-level statements. -/
def program (limit : Nat) (statements : List Stmt) : W :=
  Walk.each (stmt limit (limit + 1)) statements

end Walking

namespace Resolver

def expr (limit steps : Nat) (e : Expr) : Walk := Walking.expr limit steps e

def stmt (limit steps : Nat) (s : Stmt) : Walk := Walking.stmt limit steps s

def program (limit : Nat) (statements : List Stmt) : Walk := Walking.program limit statements

end Resolver

def defaultLimit : Nat := 512

/-- Walks a program from the start. -/
def resolve (limit : Nat) (statements : List Stmt) : Visit :=
  Resolver.program limit statements .start

/-- Walks programs one after the other, each from the surroundings in which the one before it was
left. -/
def resolveInTurn (limit : Nat) : Surroundings → List (List Stmt) → List Visit
  | _, [] => []
  | s, statements :: others =>
      let v := Resolver.program limit statements s
      v :: resolveInTurn limit v.state others

end LamScope
