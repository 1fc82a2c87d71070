import LamScope.Command.Inspect
import LamScope.Proofs.Analysis.Counts
import LamScope.Proofs.Diagnostic.ReportReading

/-!
# Agreement of the commands

The commands that look at a file decide in different ways whether they succeed. Main statement:
they agree about one file, and with the report that they print of it.
-/
namespace LamScope.Command

namespace Outcome

theorem exit_append (a b : Outcome) : (a ++ b).exit = max a.exit b.exit := rfl

theorem exit_diagnostics (form : Form) (source path : String) (phase : Phase)
    (ds : List Diagnostic) : (diagnostics form source path phase ds).exit = 0 := by
  cases form with
  | human =>
      unfold diagnostics
      dsimp only
      split <;> rfl
  | json => rfl

/-- A field of the report that was printed. -/
def printed? (o : Outcome) (inColor : Bool) (key : String) : Option JsonValue :=
  (JsonValue.read? (o.out.render inColor).toList).bind (JsonValue.get? key)

theorem printed?_report {o : Outcome} {r : Report}
    (h : o.out = Styled.raw r.json.text ++ Styled.newline) (inColor : Bool) (key : String) :
    o.printed? inColor key = r.json.get? key := by
  have htext : (o.out.render inColor).toList = r.json.text.toList ++ ['\n'] := by
    rw [h]
    cases inColor <;> simp [Styled.render, Styled.raw, Styled.newline, Styled.plain, Styled.ansi,
      Chunk.plain, Chunk.ansi]
  have hspace : JsonValue.Space ['\n'] := List.forall_mem_singleton.mpr (by rfl)
  unfold printed?
  rw [htext, JsonValue.read?_of_document (JsonValue.document_text r.json hspace)]
  rfl

end Outcome

namespace Inspection

/-- A command that found nothing wrong succeeds, whatever it shows. -/
theorem exit_passing {shown o : Outcome} (form : Form) (hshown : shown.exit = 0)
    (ho : o.exit = 0) : (shown ++ forPeople form o).exit = 0 := by
  rw [Outcome.exit_append, hshown]
  cases form with
  | human => rw [show forPeople .human o = o from rfl, ho]; rfl
  | json => rfl

theorem exit_failing (shown : Outcome) (form : Form) (banner : Styled) :
    (shown ++ fails form banner).exit ≠ 0 := by
  have hfails : (fails form banner).exit = 1 := by cases form <;> rfl
  rw [Outcome.exit_append, hfails]
  omega

theorem exit_ite {c : Prop} [Decidable c] {passing failing : Outcome} (hp : passing.exit = 0)
    (hf : failing.exit ≠ 0) : (if c then passing else failing).exit = 0 ↔ c := by
  split
  · rename_i hc
    exact iff_of_true hp hc
  · rename_i hc
    exact iff_of_false hf hc

theorem onePerLine_eq_nil_iff (fs : List ScanFault) : onePerLine none fs = [] ↔ fs = [] := by
  cases fs with
  | nil => simp [onePerLine]
  | cons f fs => simp [onePerLine]

/-- The exit code tells success. -/
def Succeeds (what : Inspection) (policy : Policy) (form : Form) (path source : String) : Prop :=
  (what.run policy form path source).exit = 0

variable {policy : Policy} {form : Form} {path source : String}

theorem succeeds_lex :
    lex.Succeeds policy form path source ↔ (Scan.ofSource source).faults = [] := by
  rw [← List.isEmpty_iff]
  exact exit_ite (exit_passing form (Outcome.exit_diagnostics ..) rfl) (exit_failing _ _ _)

/-- It does not matter that only one scan fault for each line is shown. -/
theorem succeeds_parse :
    parse.Succeeds policy form path source ↔
      (Scan.ofSource source).faults = [] ∧ (Program.ofSource source).faults = [] := by
  have hempty : (parseDiagnostics (Scan.ofSource source) (Program.ofSource source)).isEmpty = true
      ↔ (Scan.ofSource source).faults = [] ∧ (Program.ofSource source).faults = [] := by
    rw [List.isEmpty_iff, parseDiagnostics, List.append_eq_nil_iff, List.map_eq_nil_iff,
      List.map_eq_nil_iff, onePerLine_eq_nil_iff]
  rw [← hempty]
  exact exit_ite (exit_passing form (Outcome.exit_diagnostics ..) rfl) (exit_failing _ _ _)

theorem succeeds_resolve :
    resolve.Succeeds policy form path source ↔
      (Analysis.ofSource policy source).errorCount = 0 := by
  have herrors : ¬ (Analysis.ofSource policy source).hasErrors = true ↔
      (Analysis.ofSource policy source).errorCount = 0 := by simp [Analysis.hasErrors]
  rw [← herrors, Succeeds, run, resolveSource, ← ite_not]
  exact exit_ite (exit_passing form (Outcome.exit_diagnostics ..) rfl) (exit_failing _ _ _)

theorem succeeds_check :
    check.Succeeds policy form path source ↔
      (Analysis.ofSource policy source).mayExecute = true := by
  refine exit_ite (exit_passing form (Outcome.exit_diagnostics ..) rfl) ?_
  split
  · exact exit_failing _ _ _
  · exact exit_failing _ _ _

/-! ### Printed reports -/

theorem out_resolve :
    (resolve.run policy .json path source).out =
      Styled.raw ((Analysis.ofSource policy source).report path source).json.text
        ++ Styled.newline := by
  rw [run, resolveSource]
  dsimp only
  split
  · rfl
  · rfl

theorem out_check :
    (check.run policy .json path source).out =
      Styled.raw ((Analysis.ofSource policy source).report path source).json.text
        ++ Styled.newline := by
  rw [run, checkSource]
  dsimp only
  split
  · rfl
  · split
    · rfl
    · rfl

/-- What every report tells about an analysis. -/
theorem printed?_of_out {o : Outcome} {a : Analysis}
    (h : o.out = Styled.raw (a.report path source).json.text ++ Styled.newline) (inColor : Bool) :
    o.printed? inColor "success" = some (.bool (a.errorCount == 0)) ∧
      o.printed? inColor "error_count" = some (.nat a.errorCount) ∧
      o.printed? inColor "warning_count" = some (.nat a.warningCount) := by
  rw [Outcome.printed?_report h, Outcome.printed?_report h, Outcome.printed?_report h,
    ← a.errorCount_report path source, ← a.warningCount_report path source]
  exact ⟨rfl, rfl, rfl⟩

/-- The commands that look at a file agree about its text, where the walk over the program may go
as deep as the limit. -/
structure Agree (limit : Nat) (path source : String) : Prop where
  lexes : ∀ policy form, lex.Succeeds policy form path source ↔
    (Scan.ofSource source).faults = []
  parses : ∀ policy form, parse.Succeeds policy form path source ↔
    (Scan.ofSource source).faults = [] ∧ (Program.ofSource source).faults = []
  resolves : ∀ gate form inColor, resolve.Succeeds ⟨gate, limit⟩ form path source ↔
    (resolve.run ⟨gate, limit⟩ .json path source).printed? inColor "success" = some (.bool true)
  resolves_iff_checks : ∀ gate form form', resolve.Succeeds ⟨gate, limit⟩ form path source ↔
    check.Succeeds ⟨.errors, limit⟩ form' path source
  errors_of_any : ∀ form form', check.Succeeds ⟨.any, limit⟩ form path source →
    check.Succeeds ⟨.errors, limit⟩ form' path source
  always_of_errors : ∀ form form', check.Succeeds ⟨.errors, limit⟩ form path source →
    check.Succeeds ⟨.always, limit⟩ form' path source
  parse_of_always : ∀ policy form form', check.Succeeds ⟨.always, limit⟩ form path source →
    parse.Succeeds policy form' path source
  lex_of_parse : ∀ policy policy' form form', parse.Succeeds policy form path source →
    lex.Succeeds policy' form' path source
  /-- Both counts of a report are those of the analysis. -/
  counts : ∀ what, what = resolve ∨ what = check → ∀ gate inColor,
    let printed? := (what.run ⟨gate, limit⟩ .json path source).printed? inColor
    let a := Analysis.ofSource ⟨gate, limit⟩ source
    printed? "error_count" = some (.nat a.errorCount) ∧
      printed? "warning_count" = some (.nat a.warningCount)

theorem agree_run (limit : Nat) (path source : String) : Agree limit path source where
  lexes _ _ := succeeds_lex
  parses _ _ := succeeds_parse
  resolves gate form inColor := by
    rw [succeeds_resolve, (printed?_of_out out_resolve inColor).1]
    simp
  resolves_iff_checks gate form form' := by
    rw [succeeds_resolve, succeeds_check, Analysis.mayExecute_errors_iff gate]
  errors_of_any form form' h := by
    rw [succeeds_check] at h ⊢
    exact Analysis.mayExecute_mono (by decide) le_rfl h
  always_of_errors form form' h := by
    rw [succeeds_check] at h ⊢
    exact Analysis.mayExecute_mono (by decide) le_rfl h
  parse_of_always policy form form' h := by
    obtain ⟨hscan, hread, -⟩ := Analysis.mayExecute_iff.mp (succeeds_check.mp h)
    rw [Analysis.scanFaults_ofSource] at hscan
    rw [Analysis.syntaxFaults_ofSource] at hread
    exact succeeds_parse.mpr ⟨hscan, hread⟩
  lex_of_parse policy policy' form form' h := succeeds_lex.mpr (succeeds_parse.mp h).1
  counts what hwhat gate inColor := by
    rcases hwhat with rfl | rfl
    · exact (printed?_of_out out_resolve inColor).2
    · exact (printed?_of_out out_check inColor).2

end Inspection

end LamScope.Command
