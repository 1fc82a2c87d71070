import LamScope.Proofs.Scope.Height
import LamScope.Proofs.Scope.Limits
import LamScope.Proofs.Scope.Trace

/-!
# Findings of a walk

The findings of a completed walk are those of the moments of its course, in order. A walk that
stops has the first of them.
-/
namespace LamScope

namespace Course

theorem filterMap_finding?_report (fs : List Finding) :
    (fs.map Event.report).filterMap Event.finding? = fs := by
  rw [List.filterMap_map]
  exact List.filterMap_some

theorem filterMap_finding?_record (rs : List (Nat × Nat)) :
    (rs.map fun (id, distance) => Event.record id distance).filterMap Event.finding? = [] := by
  rw [List.filterMap_map]
  exact List.filterMap_eq_nil_iff.mpr fun _ _ => rfl

theorem Moment.filterMap_finding?_events (m : Moment) :
    m.events.filterMap Event.finding? = m.findings := by
  rw [events, List.filterMap_append, filterMap_finding?_report, filterMap_finding?_record,
    List.append_nil]

theorem filterMap_finding?_flatMap (ms : List Moment) :
    (ms.flatMap Moment.events).filterMap Event.finding? = ms.flatMap Moment.findings := by
  rw [List.filterMap_flatMap]
  exact congrArg (List.flatMap · ms) (funext Moment.filterMap_finding?_events)

end Course

open Course

theorem findings_resolve {limit : Nat} {statements : List Stmt}
    (h : (resolve limit statements).stopped = none) :
    (resolve limit statements).findings = (Stmt.course statements).flatMap Moment.findings := by
  unfold Visit.findings
  rw [trace_resolve h, filterMap_finding?_flatMap]

/-- Stopped or not, a walk emits the beginning of what the course of the program calls for. -/
theorem isPrefix_trace (limit : Nat) (statements : List Stmt) :
    (resolve limit statements).trace <+: (Stmt.course statements).flatMap Moment.events := by
  have hcompletes :
      (resolve (max limit (Stmt.allHeight statements)) statements).stopped = none := by
    rw [resolve_eq]
    exact Walk.program_completes (Nat.le_max_right _ _) .start
  have hcuts := Resolver.program_cuts statements (Nat.le_max_left limit (Stmt.allHeight statements))
    .start
  exact trace_resolve hcompletes ▸ hcuts.trace

theorem isPrefix_findings (limit : Nat) (statements : List Stmt) :
    (resolve limit statements).findings <+:
      (Stmt.course statements).flatMap Moment.findings := by
  have hfindings := (isPrefix_trace limit statements).filterMap Event.finding?
  rwa [filterMap_finding?_flatMap] at hfindings

end LamScope
