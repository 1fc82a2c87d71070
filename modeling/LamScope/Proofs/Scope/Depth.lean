import LamScope.Proofs.Scope.Congruence

/-!
# The depth of a walk

A resolver counts how deep it is: it adds one where it enters an expression or a statement and takes
one off where it leaves it, whether the walk inside was stopped or not. So at every depth it does
what the walk does to which the levels left at that depth are handed down, and it ends at the depth
at which it began.
-/
namespace LamScope

/-- The same but for the depth. -/
def Surroundings.atDepth (d : Nat) (s : Surroundings) : Surroundings := { s with depth := d }

/-- The same but for the depth at the end. -/
def Visit.atDepth (d : Nat) (v : Visit) : Visit := { v with state := v.state.atDepth d }

namespace Walk

/-- At depth `d` the first walk does what the second does at any depth, and ends at depth `d`. -/
def CountsAt (d : Nat) (a b : Walk) : Prop :=
  ∀ s : Surroundings, a (s.atDepth d) = (b s).atDepth d

variable {d limit : Nat} {a a' b b' : Walk}

theorem CountsAt.depth_eq (h : a.CountsAt d b) {s : Surroundings} (hs : s.depth = d) :
    (a s).state.depth = s.depth := by
  have hvisit := h s
  rw [← hs] at hvisit
  exact congrArg (·.state.depth) hvisit

/-- A walk that does not go by the depth does not change it either. -/
theorem CountsAt.eq (h : a.CountsAt d b) (hself : b.CountsAt d b) {s : Surroundings}
    (hs : s.depth = d) : a s = b s := by
  subst hs
  exact (h s).trans (hself s).symm

theorem change_countsAt {f : Surroundings → Surroundings}
    (h : ∀ s, f (s.atDepth d) = (f s).atDepth d) : (change f).CountsAt d (change f) := by
  intro s
  unfold change
  rw [h]
  rfl

theorem emit_countsAt {events : Surroundings → List Event}
    (h : ∀ s, events (s.atDepth d) = events s) : (emit events).CountsAt d (emit events) := by
  intro s
  unfold emit
  rw [h]
  rfl

theorem append_countsAt (ha : a.CountsAt d a') (hb : b.CountsAt d b') :
    (a ++ b).CountsAt d (a' ++ b') := by
  intro s
  have hfirst := ha s
  cases h : (a' s).stopped with
  | some deep =>
      have hstopped : (a (s.atDepth d)).stopped = some deep := by rw [hfirst]; exact h
      rw [append_of_stopped h, append_of_stopped hstopped]
      exact hfirst
  | none =>
      have hcompleted : (a (s.atDepth d)).stopped = none := by rw [hfirst]; exact h
      have hrest : b (a (s.atDepth d)).state = (b' (a' s).state).atDepth d := by
        rw [hfirst]
        exact hb _
      rw [append_of_completed h, append_of_completed hcompleted, hrest, hfirst]
      rfl

theorem inFrame_countsAt (h : a.CountsAt d a') : (inFrame a).CountsAt d (inFrame a') := by
  intro s
  have hbody := h { s with scopes := s.scopes.enter }
  simp only [Surroundings.atDepth] at hbody
  simp only [inFrame, Surroundings.atDepth, hbody]
  rfl

theorem inCallable_countsAt (kind : Enclosure) (h : a.CountsAt d a') :
    (inCallable kind a).CountsAt d (inCallable kind a') := by
  intro s
  have hbody : a { s.atDepth d with enclosure := kind } =
      (a' { s with enclosure := kind }).atDepth d := h { s with enclosure := kind }
  unfold inCallable
  rw [hbody]
  rfl

theorem countsAt_congruence (d : Nat) : Congruence (CountsAt d) where
  skip _ := rfl
  append ha hb := append_countsAt ha hb
  atLine _ := change_countsAt fun _ => rfl
  declare _ := append_countsAt
    (append_countsAt (change_countsAt fun _ => rfl) (emit_countsAt fun _ => rfl))
    (change_countsAt fun _ => rfl)
  define _ := change_countsAt fun _ => rfl
  readName _ _ := append_countsAt
    (append_countsAt (append_countsAt (change_countsAt fun _ => rfl) (emit_countsAt fun _ => rfl))
      (change_countsAt fun _ => rfl))
    (emit_countsAt fun _ => rfl)
  recordName _ _ := emit_countsAt fun _ => rfl
  checkReturn _ := append_countsAt (change_countsAt fun _ => rfl) (emit_countsAt fun _ => rfl)
  inFrame h := inFrame_countsAt h
  inCallable kind _ _ h := inCallable_countsAt kind h

theorem stop_countsAt (limit : Nat) (span : Span) :
    (stop limit span).CountsAt d (stop limit span) := fun _ => rfl

theorem descend_of_lt {s : Surroundings} (h : s.depth < limit) {span : Span} :
    descend limit span a s = (a (s.atDepth (s.depth + 1))).atDepth
      ((a (s.atDepth (s.depth + 1))).state.depth - 1) :=
  if_neg (Nat.not_le.mpr h)

/-- A walk that is not stopped was not stopped one level deeper. -/
theorem stopped_of_descend {s : Surroundings} {span : Span}
    (h : (descend limit span a s).stopped = none) :
    (a (s.atDepth (s.depth + 1))).stopped = none := by
  rcases Nat.lt_or_ge s.depth limit with hlt | hge
  · rwa [descend_of_lt hlt] at h
  · rw [descend, if_pos hge] at h
    cases h

/-- Where no level is left a walk is not begun. -/
theorem descend_countsAt_of_le (h : limit ≤ d) (span : Span) :
    (descend limit span a).CountsAt d (stop limit span) := by
  intro s
  have hfull : limit ≤ (s.atDepth d).depth := h
  unfold descend
  rw [if_pos hfull]
  rfl

/-- What a walk does one level deeper it does from here, and the level is left again. -/
theorem descend_countsAt_of_lt (h : d < limit) (span : Span) (ha : a.CountsAt (d + 1) b) :
    (descend limit span a).CountsAt d b := by
  intro s
  have hbody : a ((s.atDepth d).atDepth (d + 1)) = (b s).atDepth (d + 1) := ha s
  refine (descend_of_lt (s := s.atDepth d) h).trans ?_
  change (a ((s.atDepth d).atDepth (d + 1))).atDepth
    ((a ((s.atDepth d).atDepth (d + 1))).state.depth - 1) = _
  rw [hbody]
  rfl

/-- The walks to which levels are handed down go by no depth. -/
theorem expr_countsAt_self (limit levels : Nat) (e : Expr) :
    (expr limit levels e).CountsAt d (expr limit levels e) := by
  have h := expr_related (d := 0) (countsAt_congruence d)
    (fun e' => stop_countsAt limit e'.span) levels e
  rwa [Nat.zero_add] at h

theorem stmt_countsAt_self (limit levels : Nat) (s : Stmt) :
    (stmt limit levels s).CountsAt d (stmt limit levels s) := by
  have h := stmt_related (d := 0) (countsAt_congruence d)
    (fun e => stop_countsAt limit e.span) (fun s' => stop_countsAt limit s'.span) levels s
  rwa [Nat.zero_add] at h

end Walk

namespace Resolver
open Walk
variable {limit : Nat}

theorem expr_countsAt {steps d : Nat} (h : limit ≤ steps + d) (e : Expr) :
    (expr limit steps e).CountsAt d (Walk.expr limit (limit - d) e) := by
  induction steps generalizing d e with
  | zero =>
      have hnone : limit - d = 0 := by omega
      rw [hnone]
      exact stop_countsAt limit e.span
  | succ steps ih =>
      rcases Nat.lt_or_ge d limit with hlt | hge
      · have hlevels : limit - d = limit - (d + 1) + 1 := by omega
        have hinner := ih (d := d + 1) (by omega)
        rw [hlevels]
        exact descend_countsAt_of_lt hlt e.span
          (insideExpr_related (countsAt_congruence (d + 1)) hinner e)
      · have hnone : limit - d = 0 := by omega
        rw [hnone]
        exact descend_countsAt_of_le hge e.span

theorem stmt_countsAt {steps d : Nat} (h : limit ≤ steps + d) (s : Stmt) :
    (stmt limit steps s).CountsAt d (Walk.stmt limit (limit - d) s) := by
  induction steps generalizing d s with
  | zero =>
      have hnone : limit - d = 0 := by omega
      rw [hnone]
      exact stop_countsAt limit s.span
  | succ steps ih =>
      rcases Nat.lt_or_ge d limit with hlt | hge
      · have hlevels : limit - d = limit - (d + 1) + 1 := by omega
        have hinner := ih (d := d + 1) (by omega)
        have hexpr (e : Expr) := expr_countsAt (show limit ≤ steps + (d + 1) by omega) e
        rw [hlevels]
        exact descend_countsAt_of_lt hlt s.span
          (insideStmt_related (countsAt_congruence (d + 1)) hinner hexpr s)
      · have hnone : limit - d = 0 := by omega
        rw [hnone]
        exact descend_countsAt_of_le hge s.span

theorem program_countsAt (limit d : Nat) (statements : List Stmt) :
    (program limit statements).CountsAt d (each (Walk.stmt limit (limit - d)) statements) := by
  have hstmt (s : Stmt) : (stmt limit (limit + 1) s).CountsAt d (Walk.stmt limit (limit - d) s) :=
    stmt_countsAt (by omega) s
  exact each_related (countsAt_congruence d) hstmt statements

/-- A resolver walks as if the levels that its depth leaves were handed down. -/
theorem program_eq (limit : Nat) (statements : List Stmt) (s : Surroundings) :
    program limit statements s = each (Walk.stmt limit (limit - s.depth)) statements s := by
  have hself := each_related (countsAt_congruence s.depth)
    (stmt_countsAt_self limit (limit - s.depth)) statements
  exact (program_countsAt limit s.depth statements).eq hself rfl

theorem depth_program (limit : Nat) (statements : List Stmt) (s : Surroundings) :
    (program limit statements s).state.depth = s.depth :=
  (program_countsAt limit s.depth statements).depth_eq rfl

/-- From the outside of all levels, all of them are handed down. -/
theorem program_eq_of_depth_eq_zero {s : Surroundings} (hs : s.depth = 0) (limit : Nat)
    (statements : List Stmt) : program limit statements s = Walk.program limit statements s := by
  rw [program_eq, hs]
  rfl

end Resolver

theorem resolve_eq (limit : Nat) (statements : List Stmt) :
    resolve limit statements = Walk.program limit statements .start :=
  Resolver.program_eq_of_depth_eq_zero rfl limit statements

end LamScope
