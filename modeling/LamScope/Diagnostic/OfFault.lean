import LamScope.Diagnostic.Basic
import LamScope.Scope.Finding
import LamScope.Syntax.Fault
import LamScope.Token.Scan

/-!
# Diagnostics of faults and findings

Every fault of the scan, every syntax fault and every finding becomes one diagnostic with a code
of its own class.
-/
namespace LamScope

/-- The classes of faults that are found before scopes are looked at. -/
inductive FaultClass where
  | unexpectedCharacter
  | unterminatedString
  | malformedNumber
  | expected
  | invalidTarget
  | limit
deriving DecidableEq, Repr

namespace FaultClass

def code : FaultClass → String
  | unexpectedCharacter => "E0001"
  | unterminatedString => "E0002"
  | malformedNumber => "E0003"
  | expected => "E0100"
  | invalidTarget => "E0101"
  | limit => "E0102"

def label : FaultClass → String
  | unexpectedCharacter => "unexpected character"
  | unterminatedString => "string starts here"
  | malformedNumber => "not a number"
  | expected | invalidTarget | limit => "here"

/-- What is marked of the span of a fault. An unclosed string goes on to the end of the text, so
only its quote is marked. -/
def marked (c : FaultClass) (span : Span) : Span :=
  if c = unterminatedString then ⟨span.start, span.start + 1⟩ else span

/-- The diagnostic of a fault of this class. -/
def diagnostic (c : FaultClass) (span : Span) (message : String) (hint : Option String) :
    Diagnostic where
  severity := .error
  code := some c.code
  message := message
  labels := [.primary (c.marked span) c.label]
  notes := []
  help := hint

end FaultClass

def ScanFault.Cause.faultClass : ScanFault.Cause → FaultClass
  | unexpectedCharacter _ => .unexpectedCharacter
  | unterminatedString => .unterminatedString
  | malformedNumber => .malformedNumber

def ScanFault.diagnostic (f : ScanFault) : Diagnostic :=
  f.cause.faultClass.diagnostic f.span f.cause.message f.cause.hint?

def SyntaxFault.Cause.faultClass : SyntaxFault.Cause → FaultClass
  | expected .. => .expected
  | invalidTarget => .invalidTarget
  | tooManyArguments | tooManyParameters | tooDeep => .limit

def SyntaxFault.diagnostic (f : SyntaxFault) : Diagnostic :=
  f.cause.faultClass.diagnostic f.span f.cause.message f.cause.hint?

def Finding.diagnostic (f : Finding) : Diagnostic :=
  let base : Diagnostic :=
    { severity := .error, code := none, message := f.cause.message, labels := [], notes := []
      help := none }
  match f.cause with
  | .duplicate _ previous =>
      { base with
        code := some "E0200"
        labels := [.primary f.span "declared again here",
          .secondary previous "first declared here"]
        help := some "rename one of them, or assign to the existing variable" }
  | .selfReference name outer =>
      let here := Label.primary f.span "read before its initializer finishes"
      match outer with
      | none => { base with code := some "E0201", labels := [here] }
      | some outer =>
          { base with
            code := some "E0201"
            labels := [here, .secondary outer s!"outer `{name}` declared here"]
            notes := [s!"the outer `{name}` is shadowed by this declaration"]
            help := some "give the new variable a different name" }
  | .unused name =>
      { base with
        severity := .warning
        code := some "E0202"
        labels := [.primary f.span "declared here"]
        help := some s!"remove `{name}`, or read it before the block ends" }
  | .strayReturn =>
      { base with
        code := some "E0203"
        labels := [.primary f.span "not inside a function"] }

def TooDeep.diagnostic (t : TooDeep) : Diagnostic where
  severity := .error
  code := some "E0204"
  message := t.message
  labels := [.primary t.span "resolution stopped here"]
  notes := ["diagnostics after this point were not computed"]
  help := some
    "split the code into smaller functions, or raise the limit with `--max-depth`"

end LamScope
