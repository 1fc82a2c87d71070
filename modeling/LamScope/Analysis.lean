import LamScope.Diagnostic.OfFault
import LamScope.Gate
import LamScope.Scope.Locals
import LamScope.Scope.Resolution
import LamScope.Syntax.Reading

/-!
# Analyses

An analysis is everything that is found out about a source text before it runs. Scopes are only
looked at in a text that was scanned and read without a fault, and a program may run only if the
gate permits its findings and nothing stopped the analysis.
-/
namespace LamScope

/-- What stands between a program and its execution. -/
structure Policy where
  gate : Gate
  /-- How deep the walk over the program may go. -/
  limit : Nat
deriving DecidableEq, Repr

def Policy.default : Policy := ⟨.default, defaultLimit⟩

/-- The stages of an analysis. -/
inductive Phase where
  | lex
  | parse
  | resolve
deriving DecidableEq, Repr

def Phase.name : Phase → String
  | lex => "lex"
  | parse => "parse"
  | resolve => "resolve"

structure Analysis where
  program : List Stmt
  scanFaults : List ScanFault
  syntaxFaults : List SyntaxFault
  /-- The distances recorded, in order. -/
  records : List (Nat × Nat)
  findings : List Finding
  aborted : Option TooDeep
  mayExecute : Bool

namespace Analysis

/-- Errors and warnings among findings. -/
def warnings (findings : List Finding) : Nat := findings.countP Finding.isWarning

def errors (findings : List Finding) : Nat := findings.countP fun f => !f.isWarning

/-- What is known of a text with faults. -/
def ofFaults (scan : Scan) (program : Program) : Analysis where
  program := program.statements
  scanFaults := scan.faults
  syntaxFaults := program.faults
  records := []
  findings := []
  aborted := none
  mayExecute := false

/-- What is known of a text without faults after the walk over its program. -/
def ofVisit (policy : Policy) (scan : Scan) (program : Program) (visit : Visit) : Analysis :=
  let findings := visit.findings
  { program := program.statements
    scanFaults := scan.faults
    syntaxFaults := program.faults
    records := visit.records
    findings := findings
    aborted := visit.stopped
    mayExecute :=
      visit.stopped.isNone && policy.gate.permits (errors findings) (warnings findings) }

def ofSource (policy : Policy) (source : String) : Analysis :=
  let scan := Scan.ofSource source
  let program := Program.ofTokens scan.tokens
  if scan.isClean && program.isClean then
    ofVisit policy scan program (resolve policy.limit program.statements)
  else ofFaults scan program

/-- The first phase that found a fault, or else the last phase. -/
def phase (a : Analysis) : Phase :=
  if !a.scanFaults.isEmpty then .lex
  else if !a.syntaxFaults.isEmpty then .parse
  else .resolve

def errorCount (a : Analysis) : Nat :=
  a.scanFaults.length + a.syntaxFaults.length + errors a.findings + a.aborted.toList.length

def warningCount (a : Analysis) : Nat := warnings a.findings

def hasErrors (a : Analysis) : Bool := 0 < a.errorCount

def locals (a : Analysis) : Locals := .ofRecords a.records

/-- All that was found, phase by phase. -/
def diagnostics (a : Analysis) : List Diagnostic :=
  a.scanFaults.map ScanFault.diagnostic ++ a.syntaxFaults.map SyntaxFault.diagnostic
    ++ a.findings.map Finding.diagnostic ++ a.aborted.toList.map TooDeep.diagnostic

end Analysis

end LamScope
