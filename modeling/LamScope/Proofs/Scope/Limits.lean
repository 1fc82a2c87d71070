import LamScope.Proofs.Scope.Depth
import LamScope.Syntax.Reading
import Mathlib.Data.List.Infix

/-!
# Walks with other limits

Main statement: what a walk emits before it stops at a limit is the beginning of what it emits with
a higher limit, and a walk that completes does the same with every higher limit. Frames that are
closed on the way out of a stopped walk add nothing.
-/
namespace LamScope

/-- The first visit is the second one, or it stopped and emitted the beginning of what the second
one did. -/
structure Visit.Cuts (v w : Visit) : Prop where
  trace : v.trace <+: w.trace
  completed : v.stopped = none → w = v

namespace Visit

theorem Cuts.refl (v : Visit) : v.Cuts v := ⟨List.prefix_rfl, fun _ => rfl⟩

theorem cuts_of_stopped {v w : Visit} {t : TooDeep} (h : v.stopped = some t)
    (htrace : v.trace <+: w.trace) : v.Cuts w := by
  constructor
  · exact htrace
  · intro hnone
    rw [h] at hnone
    cases hnone

end Visit

namespace Walk

/-- From the same surroundings the first walk does what the second one does, until it stops. -/
def Cuts (a b : Walk) : Prop := ∀ s, (a s).Cuts (b s)

variable {a a' b b' : Walk}

theorem stop_cuts (limit : Nat) (span : Span) (b : Walk) : (stop limit span).Cuts b := by
  intro s
  exact Visit.cuts_of_stopped rfl List.nil_prefix

theorem trace_prefix_append (a b : Walk) (s : Surroundings) :
    (a s).trace <+: ((a ++ b) s).trace := by
  cases h : (a s).stopped with
  | some t => rw [append_of_stopped h]
  | none =>
      rw [append_of_completed h]
      exact List.prefix_append _ _

theorem append_cuts (ha : a.Cuts a') (hb : b.Cuts b') : (a ++ b).Cuts (a' ++ b') := by
  intro s
  cases h : (a s).stopped with
  | some t =>
      rw [append_of_stopped h]
      exact Visit.cuts_of_stopped h ((ha s).trace.trans (trace_prefix_append a' b' s))
  | none =>
      have heq := (ha s).completed h
      have hrest := hb (a s).state
      rw [append_of_completed h, append_of_completed (heq ▸ h), heq]
      constructor
      · exact (List.prefix_append_right_inj _).mpr hrest.trace
      · intro hcompleted
        rw [hrest.completed hcompleted]

theorem inFrame_cuts (h : a.Cuts a') : (inFrame a).Cuts (inFrame a') := by
  intro s
  have hbody := h { s with scopes := s.scopes.enter }
  cases hstopped : (a { s with scopes := s.scopes.enter }).stopped with
  | some t =>
      -- A frame that is closed early reports nothing of its own.
      refine Visit.cuts_of_stopped hstopped ?_
      have htrace : (inFrame a s).trace = (a { s with scopes := s.scopes.enter }).trace := by
        simp [inFrame, hstopped]
      rw [htrace]
      exact hbody.trace.trans (List.prefix_append _ _)
  | none =>
      have heq : inFrame a' s = inFrame a s := by
        unfold inFrame
        rw [hbody.completed hstopped]
      rw [heq]
      exact .refl _

theorem inCallable_cuts (kind : Enclosure) (h : a.Cuts a') :
    (inCallable kind a).Cuts (inCallable kind a') := by
  intro s
  have hbody := h { s with enclosure := kind }
  constructor
  · exact hbody.trace
  · intro hcompleted
    unfold inCallable
    rw [hbody.completed hcompleted]

theorem cuts_congruence : Congruence Cuts where
  skip _ := .refl _
  append ha hb := append_cuts ha hb
  atLine _ _ := .refl _
  declare _ _ := .refl _
  define _ _ := .refl _
  readName _ _ _ := .refl _
  recordName _ _ _ := .refl _
  checkReturn _ _ := .refl _
  inFrame h := inFrame_cuts h
  inCallable kind _ _ h := inCallable_cuts kind h

end Walk

/-- A resolver with a lower limit does what one with a higher limit does, until it stops. -/
theorem Resolver.program_cuts (statements : List Stmt) {m n : Nat} (h : m ≤ n) :
    (program m statements).Cuts (program n statements) := by
  intro s
  -- The levels that the higher limit has more are left where the lower one has none.
  have hlevels : n - s.depth = n - s.depth - (m - s.depth) + (m - s.depth) := by omega
  rw [program_eq, program_eq, hlevels]
  exact Walk.each_related Walk.cuts_congruence (Walk.stmt_related Walk.cuts_congruence
    (fun e => Walk.stop_cuts m e.span _) (fun st => Walk.stop_cuts m st.span _) _) statements s

/-- From all surroundings, a walk that stops at a limit has emitted the beginning of what it emits
with a higher limit, and a walk that completes is the same with every higher limit. -/
theorem trace_program_prefix (statements : List Stmt) (s : Surroundings) {m n : Nat} (h : m ≤ n) :
    (Resolver.program m statements s).trace <+: (Resolver.program n statements s).trace ∧
      ((Resolver.program m statements s).stopped = none →
        Resolver.program n statements s = Resolver.program m statements s) := by
  have hcuts := Resolver.program_cuts statements h s
  exact ⟨hcuts.trace, hcuts.completed⟩

/-- The lower limit stops the walk in a function, after a duplicate and before an unused name. -/
theorem trace_program_prefix_stopped :
    let statements := (Program.ofSource "fun f(a, b) { var a; print -(-b); }").statements
    5 ≤ 6 ∧ (Resolver.program 5 statements .start).stopped ≠ none ∧
      (Resolver.program 6 statements .start).stopped = none ∧
      (Resolver.program 5 statements .start).trace <+:
        (Resolver.program 6 statements .start).trace ∧
      ((Resolver.program 5 statements .start).stopped = none →
        Resolver.program 6 statements .start = Resolver.program 5 statements .start) :=
  ⟨by decide, by decide +kernel, by decide +kernel, trace_program_prefix _ _ (by decide)⟩

end LamScope
