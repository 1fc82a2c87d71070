import LamScope.Proofs.Scope.Findings
import LamScope.Syntax.Reading

/-!
# Unused locals

Main statement: a completed walk reports, when it leaves a frame and after all that it reports
inside it, the names declared directly in the frame and not read directly in it after their last
declarations, in the order of their first declarations. No other name is reported as unused.
-/
namespace LamScope

namespace Course

/-- The log of a frame that ends. -/
def Moment.ended? : Moment → Option Log
  | leaving log => some log
  | doing .. => none

theorem isWarning_of_mem_duplicates {around : List Log} {w : Word} {f : Finding}
    (h : f ∈ duplicates around w) : f.isWarning = false := by
  unfold duplicates at h
  rw [Option.mem_toList, Option.map_eq_some_iff] at h
  obtain ⟨previous, -, rfl⟩ := h
  rfl

theorem isWarning_of_mem_selfReferences {around : List Log} {w : Word} {f : Finding}
    (h : f ∈ selfReferences around w) : f.isWarning = false := by
  unfold selfReferences at h
  split at h
  · obtain rfl := List.mem_singleton.mp h
    rfl
  · cases h

theorem isWarning_of_mem_strayReturns {enclosure : Enclosure} {keyword : Word} {f : Finding}
    (h : f ∈ strayReturns enclosure keyword) : f.isWarning = false := by
  unfold strayReturns at h
  split at h
  · cases h
  · obtain rfl := List.mem_singleton.mp h
    rfl

/-- Only the end of a frame is a time for warnings. -/
theorem Moment.filter_isWarning_findings (m : Moment) :
    m.findings.filter (·.isWarning) =
      m.ended?.toList.flatMap fun log => log.unused.map unusedFinding := by
  cases m with
  | leaving log =>
      have hall : ∀ f ∈ log.unused.map unusedFinding, f.isWarning = true := by
        intro f hf
        obtain ⟨w, -, rfl⟩ := List.mem_map.mp hf
        rfl
      rw [findings, List.filter_eq_self.mpr hall, ended?, Option.toList_some,
        List.flatMap_singleton]
  | doing s around enclosure =>
      rw [ended?, Option.toList_none, List.flatMap_nil, List.filter_eq_nil_iff]
      intro f hf
      have hwarning : f.isWarning = false := by
        cases s with
        | declare w => exact isWarning_of_mem_duplicates hf
        | define w => cases hf
        | read id w => exact isWarning_of_mem_selfReferences hf
        | assign id w => cases hf
        | ret keyword => exact isWarning_of_mem_strayReturns hf
      rw [hwarning]
      exact Bool.false_ne_true

end Course

open Course

/-- The logs of the frames of a program, in the order in which the frames end. -/
def Stmt.frames (statements : List Stmt) : List Log :=
  (course statements).filterMap Moment.ended?

/-- The unused locals of every frame are reported where the frame ends, and nowhere else. -/
theorem unused_resolve {limit : Nat} {statements : List Stmt}
    (h : (resolve limit statements).stopped = none) :
    (resolve limit statements).findings = (Stmt.course statements).flatMap Moment.findings ∧
      (resolve limit statements).findings.filter (·.isWarning) =
        (Stmt.frames statements).flatMap (fun log => log.unused.map unusedFinding) ∧
      ∀ log ∈ Stmt.frames statements,
        log.unused.map (·.text) = log.names.filter (fun x => !log.usedSince x) ∧
          ∀ w ∈ log.unused, log.last? w.text = some w := by
  have hfindings := findings_resolve h
  refine ⟨hfindings, ?_, fun log _ => ⟨log.map_text_unused, fun w hw => ?_⟩⟩
  · rw [hfindings, List.filter_flatMap, Stmt.frames, List.filterMap_eq_flatMap_toList,
      List.flatMap_assoc]
    exact congrArg (List.flatMap · _) (funext Moment.filter_isWarning_findings)
  · exact log.last?_eq_some_of_mem_unused hw

/-- A redeclared name that was read before, a read in the own initialiser, a read from an inner
block alone, and an assignment. -/
theorem unused_resolve_redeclared :
    let source := "{ var a; print a; var b; var a = a; var a; { print b; } b = 1; fun f(c) { } }"
    let statements := (Program.ofSource source).statements
    (resolve defaultLimit statements).stopped = none ∧
      (resolve defaultLimit statements).findings =
        (Stmt.course statements).flatMap Moment.findings ∧
      (resolve defaultLimit statements).findings.filter (·.isWarning) =
        (Stmt.frames statements).flatMap (fun log => log.unused.map unusedFinding) ∧
      ∀ log ∈ Stmt.frames statements,
        log.unused.map (·.text) = log.names.filter (fun x => !log.usedSince x) ∧
          ∀ w ∈ log.unused, log.last? w.text = some w :=
  ⟨by decide +kernel, unused_resolve (by decide +kernel)⟩

end LamScope
