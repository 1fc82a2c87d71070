import LamScope.Command.Options
import LamScope.Diagnostic.Excerpt
import LamScope.Diagnostic.Report

/-!
# Outcomes of commands

What a command leaves behind: an exit code and text on two streams. Outcomes are put together with
`++`; a failure anywhere is a failure of the whole.
-/
namespace LamScope.Command

structure Outcome where
  /-- Zero for success. -/
  exit : Nat
  out : Styled
  err : Styled

namespace Outcome

instance : Append Outcome where
  append a b := ⟨max a.exit b.exit, a.out ++ b.out, a.err ++ b.err⟩

def nothing : Outcome := ⟨0, [], []⟩

def failure : Outcome := ⟨1, [], []⟩

/-- A line on the output. -/
def print (line : Styled) : Outcome := ⟨0, line ++ Styled.newline, []⟩

/-- Lines on the output. -/
def printAll (lines : List Styled) : Outcome := ⟨0, lines.flatMap (· ++ Styled.newline), []⟩

/-- A line among the error messages. -/
def complain (line : Styled) : Outcome := ⟨0, [], line ++ Styled.newline⟩

def blankLine : Outcome := print []

def error (message : String) : Outcome :=
  complain (Styled.paint (.boldOf .red) "error" ++ Styled.raw (": " ++ message)) ++ failure

/-- People read diagnostics among the error messages; a report for programs goes to the output. -/
def diagnostics (form : Form) (source path : String) (phase : Phase) (ds : List Diagnostic) :
    Outcome :=
  match form with
  | .human => if ds.isEmpty then nothing else complain (Diagnostic.styledAll source path ds)
  | .json =>
      print (Styled.raw (Report.ofDiagnostics source path phase.name ds).json.text)

end Outcome

namespace Banner

def framed (title : Styled) : Styled :=
  Styled.paint .dimmed "===" ++ Styled.raw " " ++ title ++ Styled.raw " "
    ++ Styled.paint .dimmed "==="

def heading (title : String) : Styled := framed (Styled.raw title)

def ok (task : String) : Styled := framed (Styled.paint (.boldOf .green) (task ++ " OK"))

def count (n : Nat) (noun : String) : String :=
  toString n ++ " " ++ (if n = 1 then noun else noun ++ "s")

def okWithWarnings (task : String) (warnings : Nat) : Styled :=
  if warnings = 0 then ok task
  else framed (Styled.paint (.boldOf .yellow) (task ++ " OK: " ++ count warnings "warning"))

def failed (task : String) (errors : Nat) : Styled :=
  framed (Styled.paint (.boldOf .red) (task ++ " FAILED: " ++ count errors "error"))

/-- There are no errors, but the gate does not let the program run. -/
def blocked (task reason : String) : Styled :=
  framed (Styled.paint (.boldOf .red) (task ++ " BLOCKED: " ++ reason))

end Banner

end LamScope.Command
