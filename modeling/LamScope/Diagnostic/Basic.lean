import LamScope.Span

/-!
# Diagnostics

One form for everything that is reported about a source text: a message with labelled places,
notes and advice.
-/
namespace LamScope

inductive Severity where
  | error
  | warning
deriving DecidableEq, Repr

/-- A primary label marks the problem itself, a secondary one a place that has to do with it. -/
inductive Role where
  | primary
  | secondary
deriving DecidableEq, Repr

structure Label where
  span : Span
  role : Role
  message : Option String
deriving DecidableEq, Repr

structure Diagnostic where
  severity : Severity
  code : Option String
  message : String
  labels : List Label
  notes : List String
  help : Option String
deriving DecidableEq, Repr

def Severity.word : Severity → String
  | .error => "error"
  | .warning => "warning"

def Role.word : Role → String
  | .primary => "primary"
  | .secondary => "secondary"

def Label.primary (span : Span) (message : String) : Label := ⟨span, .primary, some message⟩

def Label.secondary (span : Span) (message : String) : Label := ⟨span, .secondary, some message⟩

namespace Diagnostic

def isError (d : Diagnostic) : Bool := d.severity == .error

/-- The span of the first primary label, or else of the first label. -/
def primarySpan? (d : Diagnostic) : Option Span :=
  ((d.labels.find? fun l => l.role == .primary) <|> d.labels.head?).map Label.span

end Diagnostic

end LamScope
