import LamScope.Scope.Telling
import LamScope.Proofs.Scope.Congruence

/-!
# What a listener is told

Main statement: a listener is told of all the events of a walk, in order, and the walk is the same
as if nobody listened.
-/
namespace LamScope

variable {τ : Type}

namespace Walk

/-- The second walk is the first one before a listener, which hears of the events one by one. -/
def ToldBy (a : Walk) (b : Telling τ) : Prop :=
  ∀ hear t s, b hear t s = ⟨(a s).trace.foldl hear t, (a s).state, (a s).stopped⟩

variable {a a' : Walk} {b b' : Telling τ}

theorem step_toldBy (a : Walk) : a.ToldBy (Telling.step (τ := τ) a) := fun _ _ _ => rfl

theorem append_toldBy (ha : a.ToldBy b) (ha' : a'.ToldBy b') : (a ++ a').ToldBy (b ++ b') := by
  intro hear t s
  change Telling.andThen b b' hear t s = _
  unfold Telling.andThen
  rw [ha hear t s]
  cases h : (a s).stopped with
  | some deep =>
      rw [append_of_stopped h, h]
  | none =>
      rw [append_of_completed h, List.foldl_append]
      exact ha' hear _ _

theorem inFrame_toldBy (h : a.ToldBy b) : (inFrame a).ToldBy (Telling.inFrame b) := by
  intro hear t s
  unfold Telling.inFrame inFrame
  rw [h hear t { s with scopes := s.scopes.enter }]
  obtain ⟨trace, state, stopped⟩ := a { s with scopes := s.scopes.enter }
  cases stopped with
  | some deep =>
      dsimp only
      rw [List.append_nil]
  | none =>
      dsimp only
      rw [List.foldl_append, List.foldl_map]

theorem inCallable_toldBy (kind : Enclosure) (h : a.ToldBy b) :
    (inCallable kind a).ToldBy (Telling.inCallable kind b) := by
  intro hear t s
  unfold Telling.inCallable inCallable
  rw [h hear t { s with enclosure := kind }]

theorem descend_toldBy (limit : Nat) (span : Span) (h : a.ToldBy b) :
    (descend limit span a).ToldBy (Telling.descend limit span b) := by
  intro hear t s
  unfold Telling.descend descend
  split
  · rfl
  · rw [h hear t { s with depth := s.depth + 1 }]

theorem toldBy_congruence : Congruence (ToldBy (τ := τ)) where
  skip := step_toldBy skip
  append := append_toldBy
  atLine n := step_toldBy (atLine n)
  declare w := step_toldBy (declare w)
  define w := step_toldBy (define w)
  readName id w := step_toldBy (readName id w)
  recordName id w := step_toldBy (recordName id w)
  checkReturn keyword := step_toldBy (checkReturn keyword)
  inFrame := inFrame_toldBy
  inCallable kind _ _ := inCallable_toldBy kind

end Walk

namespace Resolver
open Walk

theorem expr_toldBy (limit steps : Nat) (e : Expr) :
    (expr limit steps e).ToldBy (Walking.expr limit steps e : Telling τ) := by
  induction steps generalizing e with
  | zero => exact step_toldBy (stop limit e.span)
  | succ steps ih =>
      exact descend_toldBy limit e.span (insideExpr_related toldBy_congruence ih e)

theorem stmt_toldBy (limit steps : Nat) (s : Stmt) :
    (stmt limit steps s).ToldBy (Walking.stmt limit steps s : Telling τ) := by
  induction steps generalizing s with
  | zero => exact step_toldBy (stop limit s.span)
  | succ steps ih =>
      exact descend_toldBy limit s.span
        (insideStmt_related toldBy_congruence ih (expr_toldBy limit steps) s)

/-- A listener is told of what the walk finds out, when it is found out. -/
theorem program_toldBy (limit : Nat) (statements : List Stmt) :
    (program limit statements).ToldBy (Walking.program limit statements : Telling τ) :=
  each_related toldBy_congruence (stmt_toldBy limit (limit + 1)) statements

end Resolver

end LamScope
