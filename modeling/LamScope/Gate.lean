import LamScope.Text.Blank

/-!
# Gates

A gate decides by the number of errors and warnings among the findings whether a program may run.
-/
namespace LamScope

inductive Gate where
  | always
  /-- Warnings pass. -/
  | errors
  /-- Nothing at all may have been found. -/
  | any
deriving DecidableEq, Repr

namespace Gate

def default : Gate := errors

def permits (g : Gate) (errors warnings : Nat) : Bool :=
  match g with
  | always => true
  | .errors => errors == 0
  | any => errors == 0 && warnings == 0

def name : Gate → String
  | always => "always"
  | errors => "errors"
  | any => "any"

def all : List Gate := [always, errors, any]

/-- White space around a name and the case of its letters do not matter. -/
def ofName? (s : String) : Option Gate :=
  let plain := String.ofList ((Text.trim s.toList).map Char.toLower)
  all.find? fun g => g.name == plain

def unknownMessage (s : String) : String :=
  s!"unknown execution gate `{s}` (expected always, errors or any)"

end Gate

end LamScope
