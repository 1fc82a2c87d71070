import LamScope.Proofs.Reading.Numbers
import LamScope.Proofs.Scope.Height

/-!
# Where walks stop

Main statement: a walk over a program that stops does so at a node of the program.
-/
namespace LamScope

open NodeTree

namespace Walk

/-- If the walk stops, it does so at a span of a kind. -/
def StopsAt (Q : Span → Prop) (w : Walk) : Prop := ∀ s t, (w s).stopped = some t → Q t.span

section
variable {Q : Span → Prop} {a b : Walk}

theorem Completes.stopsAt (h : a.Completes) : a.StopsAt Q := by
  intro s t ht
  rw [h s] at ht
  cases ht

theorem stop_stopsAt (limit : Nat) {span : Span} (h : Q span) : (stop limit span).StopsAt Q := by
  rintro s t ⟨⟩
  exact h

theorem append_stopsAt (ha : a.StopsAt Q) (hb : b.StopsAt Q) : (a ++ b).StopsAt Q := by
  intro s t ht
  cases h : (a s).stopped with
  | some u =>
      rw [append_of_stopped h] at ht
      exact ha s t ht
  | none =>
      rw [append_of_completed h] at ht
      exact hb _ t ht

section
variable {enter : Expr → Walk} (henter : ∀ e, AllSpans Q [e.tree] → (enter e).StopsAt Q)
include henter

theorem each_expr_stopsAt {es : List Expr} (h : AllSpans Q (Expr.allTrees es)) :
    (each enter es).StopsAt Q := by
  induction es with
  | nil => exact skip_completes.stopsAt
  | cons e es ih =>
      obtain ⟨hfirst, hothers⟩ := allSpans_cons.mp h
      exact append_stopsAt (henter e hfirst) (ih hothers)

theorem chain_stopsAt : ∀ (e : Expr) {after : Walk}, AllSpans Q [e.tree] → after.StopsAt Q →
    (chain enter e after).StopsAt Q
  | .binary _ _ left right, _, he, h | .logical _ _ left right, _, he, h => by
      rw [Expr.tree] at he
      obtain ⟨hleft, hright⟩ := allSpans_cons.mp he.parts
      exact chain_stopsAt left hleft (append_stopsAt (henter right hright) h)
  | .call _ callee args, _, he, h => by
      rw [Expr.tree] at he
      obtain ⟨hcallee, hargs⟩ := allSpans_cons.mp he.parts
      exact chain_stopsAt callee hcallee (append_stopsAt (each_expr_stopsAt henter hargs) h)
  | .property _ object _, _, he, h => by
      rw [Expr.tree] at he
      exact chain_stopsAt object he.parts h
  | .literal .., _, he, h | .read .., _, he, h | .assign .., _, he, h | .unary .., _, he, h
  | .group .., _, he, h | .setProperty .., _, he, h => append_stopsAt (henter _ he) h

theorem insideExpr_stopsAt {e : Expr} (he : AllSpans Q [e.tree]) :
    (insideExpr enter e).StopsAt Q := by
  cases e with
  | literal => exact skip_completes.stopsAt
  | read node name => exact Completes.stopsAt fun _ => rfl
  | assign node name value =>
      rw [Expr.tree] at he
      have hline : (atLine name.line).Completes := fun _ => rfl
      have hrecord : (recordName node.id name).Completes := fun _ => rfl
      exact append_stopsAt (append_stopsAt (henter value he.parts) hline.stopsAt) hrecord.stopsAt
  | binary _ _ left right | logical _ _ left right =>
      rw [Expr.tree] at he
      obtain ⟨hleft, hright⟩ := allSpans_cons.mp he.parts
      exact chain_stopsAt henter left hleft (henter right hright)
  | unary _ _ operand =>
      rw [Expr.tree] at he
      exact henter operand he.parts
  | group _ inner =>
      rw [Expr.tree] at he
      exact henter inner he.parts
  | call _ callee args =>
      rw [Expr.tree] at he
      obtain ⟨hcallee, hargs⟩ := allSpans_cons.mp he.parts
      exact chain_stopsAt henter callee hcallee (each_expr_stopsAt henter hargs)
  | property _ object _ =>
      rw [Expr.tree] at he
      exact chain_stopsAt henter object he.parts skip_completes.stopsAt
  | setProperty _ object _ value =>
      rw [Expr.tree] at he
      obtain ⟨hobject, hvalue⟩ := allSpans_cons.mp he.parts
      exact append_stopsAt (henter value hvalue) (henter object hobject)

theorem optional_stopsAt {clause : Option Expr} (h : AllSpans Q (Expr.clauseTrees clause)) :
    (optional enter clause).StopsAt Q := by
  cases clause with
  | none => exact skip_completes.stopsAt
  | some e => exact henter e h

end

theorem expr_stopsAt (limit levels : Nat) {e : Expr} (he : AllSpans Q [e.tree]) :
    (expr limit levels e).StopsAt Q := by
  induction levels generalizing e with
  | zero => exact stop_stopsAt limit (he e.node e.node_mem_tree)
  | succ levels ih => exact insideExpr_stopsAt (fun _ he => ih he) he

section
variable {enter : Stmt → Walk} (henter : ∀ s, AllSpans Q [s.tree] → (enter s).StopsAt Q)
include henter

theorem each_stmt_stopsAt {ss : List Stmt} (h : AllSpans Q (Stmt.allTrees ss)) :
    (each enter ss).StopsAt Q := by
  induction ss with
  | nil => exact skip_completes.stopsAt
  | cons s ss ih =>
      rw [Stmt.allTrees] at h
      obtain ⟨hfirst, hothers⟩ := allSpans_cons.mp h
      exact append_stopsAt (henter s hfirst) (ih hothers)

theorem callable_stopsAt (kind : Enclosure) {decl : Callable} (h : AllSpans Q decl.trees) :
    (callable enter kind decl).StopsAt Q := by
  obtain ⟨name, params, body⟩ := decl
  have hparams : (each (fun p => declare p ++ define p) params).Completes :=
    each_completes fun _ _ _ => rfl
  have hbody := append_stopsAt hparams.stopsAt (each_stmt_stopsAt henter h)
  exact fun s => hbody { s with enclosure := kind, scopes := s.scopes.enter }

theorem methods_stopsAt {decls : List Callable} (h : AllSpans Q (Callable.allTrees decls)) :
    (each (callable enter .method) decls).StopsAt Q := by
  induction decls with
  | nil => exact skip_completes.stopsAt
  | cons decl decls ih =>
      rw [Callable.allTrees] at h
      obtain ⟨hfirst, hothers⟩ := allSpans_append.mp h
      exact append_stopsAt (callable_stopsAt henter .method hfirst) (ih hothers)

theorem insideStmt_stopsAt {enterExpr : Expr → Walk}
    (hexpr : ∀ e, AllSpans Q [e.tree] → (enterExpr e).StopsAt Q) {s : Stmt}
    (hs : AllSpans Q [s.tree]) : (insideStmt enterExpr enter s).StopsAt Q := by
  have hname (name : Word) : (declare name ++ define name).StopsAt Q :=
    Completes.stopsAt fun _ => rfl
  cases s with
  | block _ body =>
      rw [Stmt.tree] at hs
      have hbody := each_stmt_stopsAt henter hs.parts
      exact fun s => hbody { s with scopes := s.scopes.enter }
  | var _ name init =>
      rw [Stmt.tree] at hs
      have hdeclare : (declare name).Completes := fun _ => rfl
      have hdefine : (define name).Completes := fun _ => rfl
      have hinit := optional_stopsAt hexpr hs.parts
      exact append_stopsAt (append_stopsAt hdeclare.stopsAt hinit) hdefine.stopsAt
  | function _ decl =>
      rw [Stmt.tree] at hs
      exact append_stopsAt (hname decl.name) (callable_stopsAt henter .function hs.parts)
  | expr _ value | print _ value =>
      rw [Stmt.tree] at hs
      exact hexpr value hs.parts
  | ifThen _ cond body | loop _ cond body =>
      rw [Stmt.tree] at hs
      obtain ⟨hcond, hbody⟩ := allSpans_cons.mp hs.parts
      exact append_stopsAt (hexpr cond hcond) (henter body hbody)
  | ifThenElse _ cond body otherwise =>
      rw [Stmt.tree] at hs
      obtain ⟨hcond, hrest⟩ := allSpans_cons.mp hs.parts
      obtain ⟨hbody, hotherwise⟩ := allSpans_cons.mp hrest
      exact append_stopsAt (append_stopsAt (hexpr cond hcond) (henter body hbody))
        (henter otherwise hotherwise)
  | ret _ keyword value =>
      rw [Stmt.tree] at hs
      have hreturn : (checkReturn keyword).Completes := fun _ => rfl
      exact append_stopsAt hreturn.stopsAt (optional_stopsAt hexpr hs.parts)
  | classDef _ name methods =>
      rw [Stmt.tree] at hs
      exact append_stopsAt (hname name) (methods_stopsAt henter hs.parts)

end

theorem stmt_stopsAt (limit levels : Nat) {s : Stmt} (hs : AllSpans Q [s.tree]) :
    (stmt limit levels s).StopsAt Q := by
  induction levels generalizing s with
  | zero => exact stop_stopsAt limit (hs s.node s.node_mem_tree)
  | succ levels ih =>
      exact insideStmt_stopsAt (fun _ hs => ih hs) (fun _ he => expr_stopsAt limit levels he) hs

/-- A walk over a program stops at one of its nodes, if it does. -/
theorem program_stopsAt (limit : Nat) {statements : List Stmt}
    (h : AllSpans Q (Stmt.allTrees statements)) : (program limit statements).StopsAt Q :=
  each_stmt_stopsAt (fun _ hs => stmt_stopsAt limit limit hs) h

end

end Walk

end LamScope
