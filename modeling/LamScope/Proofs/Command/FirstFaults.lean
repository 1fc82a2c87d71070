import LamScope.Proofs.Command.Agreement
import LamScope.Proofs.Token.Faults

/-!
# The first fault of each line

Of the faults of a scan, `parse` shows those that are not in the line of the one shown last. As
long as offsets fit 32 bits the lines of the faults never decrease, so these are the first faults of
all lines that have one. Main statement: they are then shown in the order of their lines; all syntax
faults follow, and nothing is shown exactly if there are no faults at all.
-/
namespace LamScope.Command.Inspection

/-- The first of the faults that are in the line. -/
def firstIn (fs : List ScanFault) (line : Nat) : Option ScanFault :=
  fs.find? fun f => f.line == line

/-- The first faults of so many lines, from one line on. -/
def firsts (line count : Nat) (fs : List ScanFault) : List ScanFault :=
  (List.range' line count).filterMap (firstIn fs)

variable {line count : Nat} {f : ScanFault} {fs : List ScanFault}

theorem firsts_add (line m count : Nat) (fs : List ScanFault) :
    firsts line (m + count) fs = firsts line m fs ++ firsts (line + m) count fs := by
  unfold firsts
  rw [← List.filterMap_append, List.range'_append_1]

theorem firsts_cons_of_lt (h : f.line < line) :
    firsts line count (f :: fs) = firsts line count fs := by
  apply List.filterMap_congr
  intro n hn
  have hle := (List.mem_range'_1.mp hn).1
  have hne : f.line ≠ n := by omega
  simp [firstIn, hne]

theorem firsts_eq_nil (h : ∀ f ∈ fs, line + count ≤ f.line) : firsts line count fs = [] := by
  apply List.filterMap_eq_nil_iff.mpr
  intro n hn
  have hlt := (List.mem_range'_1.mp hn).2
  apply List.find?_eq_none.mpr
  intro f hf
  have hle := h f hf
  simp only [beq_iff_eq]
  omega

theorem firsts_self (count : Nat) (f : ScanFault) (fs : List ScanFault) :
    firsts f.line (count + 1) (f :: fs) = f :: firsts (f.line + 1) count fs := by
  have hfirst : firstIn (f :: fs) f.line = some f := by simp [firstIn]
  have hrest : firsts (f.line + 1) count (f :: fs) = firsts (f.line + 1) count fs :=
    firsts_cons_of_lt (Nat.lt_succ_self f.line)
  rw [← hrest, firsts, List.range'_succ, List.filterMap_cons_some hfirst]
  rfl

/-- If lines never decrease, then a fault in another line than the last one shown is the first in
its line. -/
theorem onePerLine_eq_firsts (hordered : fs.Pairwise fun f g => f.line ≤ g.line)
    (hlines : ∀ f ∈ fs, line ≤ f.line ∧ f.line ≤ line + count) :
    onePerLine (some line) fs = firsts (line + 1) count fs := by
  induction fs generalizing line count with
  | nil => exact (firsts_eq_nil (by simp)).symm
  | cons f fs ih =>
      obtain ⟨hfirst, hrest⟩ := List.pairwise_cons.mp hordered
      obtain ⟨hle, hcount⟩ := hlines f List.mem_cons_self
      by_cases hline : line = f.line
      · rw [onePerLine, if_pos (congrArg some hline), firsts_cons_of_lt (by omega)]
        apply ih hrest
        intro g hg
        exact hlines g (List.mem_cons_of_mem f hg)
      · have hgap : ∃ m k, f.line = line + 1 + m ∧ count = m + (k + 1) :=
          ⟨f.line - (line + 1), line + count - f.line, by omega, by omega⟩
        obtain ⟨m, k, hf, rfl⟩ := hgap
        have hnone : firsts (line + 1) m (f :: fs) = [] := by
          apply firsts_eq_nil
          intro g hg
          rcases List.mem_cons.mp hg with rfl | hg
          · omega
          · have hge := hfirst g hg
            omega
        rw [onePerLine, if_neg (by simpa using hline), firsts_add, hnone, ← hf, firsts_self,
          List.nil_append]
        apply congrArg (List.cons f)
        apply ih hrest
        intro g hg
        have hbounds := hlines g (List.mem_cons_of_mem f hg)
        have hge := hfirst g hg
        omega

theorem onePerLine_none (h : ∀ f ∈ fs, f.line ≠ line) :
    onePerLine none fs = onePerLine (some line) fs := by
  cases fs with
  | nil => rfl
  | cons f fs =>
      have hne : some line ≠ some f.line := by
        intro heq
        exact h f List.mem_cons_self (Option.some.inj heq).symm
      rw [onePerLine, onePerLine, if_neg (by simp), if_neg hne]

/-! ### Lines of a scan -/

section
variable {source : String} (hsize : Text.byteLength source.toList < UInt32.size)
include hsize

theorem pairwise_line_faults :
    (Scan.ofSource source).faults.Pairwise fun f g => f.line ≤ g.line := by
  apply (Scan.pairwise_faults source).imp_of_mem
  intro f g hf hg hfg
  obtain ⟨taken, hholds, -⟩ := Scan.stands_of_mem_faults hf
  obtain ⟨taken', hholds', -⟩ := Scan.stands_of_mem_faults hg
  exact Scan.line_le_of_start_le hsize hholds hholds' hfg.2.le

theorem line_faults (hf : f ∈ (Scan.ofSource source).faults) :
    0 < f.line ∧ f.line ≤ source.toList.count '\n' + 1 := by
  obtain ⟨taken, hholds, -⟩ := Scan.stands_of_mem_faults hf
  obtain ⟨before, hbefore, -, hline⟩ := Scan.count_of_holds hholds hsize
  have hcount := hbefore.sublist.count_le '\n'
  omega

end

/-- The first faults of the lines of a source. -/
def lineFaults (source : String) : List ScanFault :=
  firsts 1 (source.toList.count '\n' + 1) (Scan.ofSource source).faults

theorem onePerLine_faults {source : String}
    (hsize : Text.byteLength source.toList < UInt32.size) :
    onePerLine none (Scan.ofSource source).faults = lineFaults source := by
  have hne : ∀ f ∈ (Scan.ofSource source).faults, f.line ≠ 0 := fun f hf =>
    Nat.ne_of_gt (line_faults hsize hf).1
  rw [onePerLine_none hne]
  apply onePerLine_eq_firsts (pairwise_line_faults hsize)
  intro f hf
  have hbounds := line_faults hsize hf
  omega

/-- The diagnostics that `parse` shows of a source. -/
structure ShowsFirsts (source : String) (ds : List Diagnostic) : Prop where
  eq : ds = (onePerLine none (Scan.ofSource source).faults).map ScanFault.diagnostic ++
    (Program.ofSource source).faults.map SyntaxFault.diagnostic
  /-- Lines are told from offsets of 32 bits, so they come in order in a text of such a length. -/
  firsts : Text.byteLength source.toList < UInt32.size →
    onePerLine none (Scan.ofSource source).faults = lineFaults source
  eq_nil_iff : ds = [] ↔ (Scan.ofSource source).faults = [] ∧ (Program.ofSource source).faults = []

theorem showsFirsts_parseDiagnostics (source : String) :
    ShowsFirsts source (parseDiagnostics (Scan.ofSource source) (Program.ofSource source)) := by
  refine ⟨rfl, onePerLine_faults, ?_⟩
  rw [parseDiagnostics, List.append_eq_nil_iff, List.map_eq_nil_iff, List.map_eq_nil_iff,
    onePerLine_eq_nil_iff]

/-- The first fault of each line, then the syntax faults: these are shown, and the tree only if
there are none. -/
theorem shown_parse (source : String) :
    ∃ ds tree, ShowsFirsts source ds ∧ tree.err = [] ∧ ∀ policy form path,
      parse.run policy form path source = Outcome.diagnostics form source path .parse ds ++
        if ds = [] then forPeople form tree else fails form (Banner.failed "Parse" ds.length) := by
  refine ⟨_, ?tree, showsFirsts_parseDiagnostics source, ?err, fun policy form path => ?run⟩
  case run =>
    have hprogram : Program.ofTokens (Scan.ofSource source).tokens = Program.ofSource source := rfl
    rw [run, parseSource]
    dsimp only
    rw [hprogram]
    split
    · rename_i hempty
      rw [if_pos (List.isEmpty_iff.mp hempty)]
    · rename_i hempty
      rw [if_neg (fun hnil => hempty (List.isEmpty_iff.mpr hnil))]
  case err => rfl

/-- Where offsets no longer fit 32 bits, the faults shown are not in the order of their lines. -/
theorem shown_not_in_order :
    let source := String.ofList ('\n' :: '@' :: (List.replicate (UInt32.size - 2) ' ' ++ ['@']))
    let first : ScanFault := ⟨.unexpectedCharacter '@', 1, ⟨UInt32.size, UInt32.size + 1⟩⟩
    let second : ScanFault := ⟨.unexpectedCharacter '@', 2, ⟨1, 2⟩⟩
    let syntaxDiagnostics := (Program.ofSource source).faults.map SyntaxFault.diagnostic
    parseDiagnostics (Scan.ofSource source) (Program.ofSource source) =
        [second.diagnostic, first.diagnostic] ++ syntaxDiagnostics ∧
      lineFaults source = [first, second] ∧
      parseDiagnostics (Scan.ofSource source) (Program.ofSource source) ≠
        (lineFaults source).map ScanFault.diagnostic ++ syntaxDiagnostics := by
  intro source first second syntaxDiagnostics
  have htext : source.toList = '\n' :: '@' :: (List.replicate (UInt32.size - 2) ' ' ++ ['@']) :=
    String.toList_ofList
  have hfaults : (Scan.ofSource source).faults = [second, first] :=
    Scan.faults_of_far (Nat.sub_add_cancel (by decide)) htext
  have hshown : parseDiagnostics (Scan.ofSource source) (Program.ofSource source) =
      [second.diagnostic, first.diagnostic] ++ syntaxDiagnostics := by
    rw [parseDiagnostics, hfaults]
    rfl
  have hlines : lineFaults source = [first, second] := by
    have hcount : source.toList.count '\n' = 1 := by
      rw [htext]
      simp [List.count_replicate]
    rw [lineFaults, hcount, hfaults]
    rfl
  refine ⟨hshown, hlines, fun heq => ?_⟩
  rw [hshown, hlines] at heq
  have hlabels := congrArg Diagnostic.labels (List.cons.inj heq).1
  exact absurd hlabels (by decide)

end LamScope.Command.Inspection
