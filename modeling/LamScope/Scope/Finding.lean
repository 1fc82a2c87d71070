import LamScope.Token

/-!
# Findings

What can be said about the scopes of a program. A finding never stops the check; only nesting
past the limit does.
-/
namespace LamScope

inductive Finding.Cause where
  | duplicate (name : String) (previous : Span)
  /-- `outer` is the declaration that was probably meant. -/
  | selfReference (name : String) (outer : Option Span)
  | unused (name : String)
  | strayReturn
deriving DecidableEq, Repr

structure Finding where
  cause : Finding.Cause
  line : Nat
  span : Span
deriving DecidableEq, Repr

namespace Finding

def of (cause : Cause) (w : Word) : Finding := ⟨cause, w.line, w.span⟩

def Cause.message : Cause → String
  | .duplicate name _ => s!"variable `{name}` is already declared in this scope"
  | .selfReference name _ => s!"cannot read local variable `{name}` in its own initializer"
  | .unused name => s!"local variable `{name}` is declared but never used"
  | .strayReturn => "cannot return from top-level code"

/-- An unused local is advice; all else is an error. -/
def isWarning (f : Finding) : Bool :=
  match f.cause with
  | .unused _ => true
  | _ => false

end Finding

/-- The check was abandoned at a node nested too deep. -/
structure TooDeep where
  /-- The line of the last declaration, variable or `return` seen before. -/
  line : Nat
  span : Span
  limit : Nat
deriving DecidableEq, Repr

def TooDeep.message (t : TooDeep) : String :=
  "nesting exceeds the resolver limit of " ++ toString t.limit ++ " levels"

end LamScope
