import LamScope.Diagnostic.Report
import LamScope.Proofs.Analysis.Permission

/-!
# Counting what is reported

Everything that stops a program is reported as an error and everything else as a warning. Main
statement: a report counts as many of both as the analysis does.
-/
namespace LamScope

theorem Finding.severity_diagnostic (f : Finding) :
    f.diagnostic.severity = if f.isWarning then .warning else .error := by
  obtain ⟨cause, line, span⟩ := f
  cases cause with
  | selfReference name outer => cases outer <;> rfl
  | duplicate | unused | strayReturn => rfl

theorem countP_map_of_severity {α : Type} (d : α → Diagnostic) {severity : Severity}
    (h : ∀ a, (d a).severity = severity) (as : List α) (s : Severity) :
    (as.map d).countP (fun d => d.severity == s) = if severity = s then as.length else 0 := by
  rw [List.countP_map]
  split
  · rename_i hs
    exact List.countP_eq_length.mpr fun a _ => by simp [h, hs]
  · rename_i hs
    exact List.countP_eq_zero.mpr fun a _ => by simp [h, hs]

namespace Analysis

/-- How many findings are of a severity. -/
def countOf (fs : List Finding) : Severity → Nat
  | .error => errors fs
  | .warning => warnings fs

theorem countP_findings (fs : List Finding) (s : Severity) :
    (fs.map Finding.diagnostic).countP (fun d => d.severity == s) = countOf fs s := by
  rw [List.countP_map]
  cases s with
  | error =>
      refine List.countP_congr fun f _ => ?_
      cases h : f.isWarning <;> simp [Finding.severity_diagnostic, h]
  | warning =>
      refine List.countP_congr fun f _ => ?_
      cases h : f.isWarning <;> simp [Finding.severity_diagnostic, h]

theorem countP_diagnostics (a : Analysis) (s : Severity) :
    a.diagnostics.countP (fun d => d.severity == s) =
      match s with
      | .error => a.errorCount
      | .warning => a.warningCount := by
  unfold diagnostics
  rw [List.countP_append, List.countP_append, List.countP_append, countP_findings,
    countP_map_of_severity ScanFault.diagnostic (fun _ => rfl),
    countP_map_of_severity SyntaxFault.diagnostic (fun _ => rfl),
    countP_map_of_severity TooDeep.diagnostic (fun _ => rfl)]
  cases s with
  | error => rfl
  | warning => simp [countOf, warningCount]

/-- The report of an analysis, as commands print it. -/
def report (a : Analysis) (path source : String) : Report :=
  .ofDiagnostics source path a.phase.name a.diagnostics

theorem errorCount_report (a : Analysis) (path source : String) :
    (a.report path source).errorCount = a.errorCount := by
  rw [report, Report.ofDiagnostics, Report.errorCount, List.countP_map]
  exact countP_diagnostics a .error

theorem warningCount_report (a : Analysis) (path source : String) :
    (a.report path source).warningCount = a.warningCount := by
  rw [report, Report.ofDiagnostics, Report.warningCount, List.countP_map]
  exact countP_diagnostics a .warning

variable {gate : Gate} {limit : Nat} {source : String}

theorem errorCount_eq_zero_iff (a : Analysis) :
    a.errorCount = 0 ↔
      a.scanFaults = [] ∧ a.syntaxFaults = [] ∧ a.aborted = none ∧ errors a.findings = 0 := by
  unfold errorCount
  cases a.aborted <;> simp [and_assoc]

/-- The gate that lets warnings pass holds back what has errors. -/
theorem mayExecute_errors_iff (gate : Gate) :
    (ofSource ⟨.errors, limit⟩ source).mayExecute = true ↔
      (ofSource ⟨gate, limit⟩ source).errorCount = 0 := by
  rw [mayExecute_iff, errorCount_eq_zero_iff, ofSource_gate gate .errors]
  simp [Gate.permits]

end Analysis

end LamScope
