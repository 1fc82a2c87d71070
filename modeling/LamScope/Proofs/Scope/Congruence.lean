import LamScope.Scope.Resolution

/-!
# Walks over the same program

Two walks over the same program, with other limits, from other surroundings or of another kind, are
put together in the same way from the same steps. A relation between walks that respects this holds
between the two as soon as it holds where the one with fewer levels stops. The walks of which this
is said last do not count their depth: the levels that are left are handed down.
-/
namespace LamScope.Walk

open Walking (step)

/-- A relation that all the parts of a walk respect. -/
structure Congruence {W W' : Type} [Walking W] [Walking W'] (R : W → W' → Prop) : Prop where
  skip : R (step skip) (step skip)
  append {a b : W} {a' b' : W'} : R a a' → R b b' → R (a ++ b) (a' ++ b')
  atLine (n : Nat) : R (step (atLine n)) (step (atLine n))
  declare (w : Word) : R (step (declare w)) (step (declare w))
  define (w : Word) : R (step (define w)) (step (define w))
  readName (id : Nat) (w : Word) : R (step (readName id w)) (step (readName id w))
  recordName (id : Nat) (w : Word) : R (step (recordName id w)) (step (recordName id w))
  checkReturn (keyword : Word) : R (step (checkReturn keyword)) (step (checkReturn keyword))
  inFrame {a : W} {a' : W'} : R a a' → R (Walking.inFrame a) (Walking.inFrame a')
  inCallable (kind : Enclosure) {a : W} {a' : W'} :
    R a a' → R (Walking.inCallable kind a) (Walking.inCallable kind a')

section
variable {W W' : Type} [Walking W] [Walking W'] {R : W → W' → Prop} (hR : Congruence R)
include hR

theorem each_related {α : Type} {f : α → W} {g : α → W'} (h : ∀ a, R (f a) (g a)) (as : List α) :
    R (each f as) (each g as) := by
  induction as with
  | nil => exact hR.skip
  | cons a as ih => exact hR.append (h a) ih

section
variable {enter : Expr → W} {enter' : Expr → W'} (henter : ∀ e, R (enter e) (enter' e))
include henter

theorem chain_related : ∀ (e : Expr) {after : W} {after' : W'}, R after after' →
    R (chain enter e after) (chain enter' e after')
  | .binary _ _ left right, _, _, h | .logical _ _ left right, _, _, h =>
      chain_related left (hR.append (henter right) h)
  | .call _ callee args, _, _, h =>
      chain_related callee (hR.append (each_related hR henter args) h)
  | .property _ object _, _, _, h => chain_related object h
  | .literal .., _, _, h | .read .., _, _, h | .assign .., _, _, h | .unary .., _, _, h
  | .group .., _, _, h | .setProperty .., _, _, h => hR.append (henter _) h

theorem insideExpr_related (e : Expr) : R (insideExpr enter e) (insideExpr enter' e) := by
  cases e with
  | literal => exact hR.skip
  | read node name => exact hR.readName node.id name
  | assign node name value =>
      exact hR.append (hR.append (henter value) (hR.atLine name.line)) (hR.recordName node.id name)
  | binary _ _ left right => exact chain_related hR henter left (henter right)
  | logical _ _ left right => exact chain_related hR henter left (henter right)
  | unary _ _ operand => exact henter operand
  | group _ inner => exact henter inner
  | call _ callee args => exact chain_related hR henter callee (each_related hR henter args)
  | property _ object _ => exact chain_related hR henter object hR.skip
  | setProperty _ object _ value => exact hR.append (henter value) (henter object)

theorem optional_related (clause : Option Expr) :
    R (optional enter clause) (optional enter' clause) := by
  cases clause with
  | none => exact hR.skip
  | some e => exact henter e

end

section
variable {enter : Stmt → W} {enter' : Stmt → W'} (henter : ∀ s, R (enter s) (enter' s))
include henter

theorem callable_related (kind : Enclosure) (decl : Callable) :
    R (callable enter kind decl) (callable enter' kind decl) := by
  have hparams := each_related hR (fun p => hR.append (hR.declare p) (hR.define p)) decl.params
  have hbody := each_related hR henter decl.body
  exact hR.inCallable kind (hR.inFrame (hR.append hparams hbody))

theorem insideStmt_related {enterExpr : Expr → W} {enterExpr' : Expr → W'}
    (hexpr : ∀ e, R (enterExpr e) (enterExpr' e)) (s : Stmt) :
    R (insideStmt enterExpr enter s) (insideStmt enterExpr' enter' s) := by
  cases s with
  | block _ body => exact hR.inFrame (each_related hR henter body)
  | var _ name init =>
      have hinit := optional_related hR hexpr init
      exact hR.append (hR.append (hR.declare name) hinit) (hR.define name)
  | function _ decl =>
      have hname := hR.append (hR.declare decl.name) (hR.define decl.name)
      exact hR.append hname (callable_related hR henter .function decl)
  | expr _ value => exact hexpr value
  | print _ value => exact hexpr value
  | ifThen _ cond body => exact hR.append (hexpr cond) (henter body)
  | ifThenElse _ cond body otherwise =>
      exact hR.append (hR.append (hexpr cond) (henter body)) (henter otherwise)
  | ret _ keyword value =>
      exact hR.append (hR.checkReturn keyword) (optional_related hR hexpr value)
  | loop _ cond body => exact hR.append (hexpr cond) (henter body)
  | classDef _ name methods =>
      have hname := hR.append (hR.declare name) (hR.define name)
      exact hR.append hname (each_related hR (callable_related hR henter .method) methods)

end

end

/-- Walks an expression with so many levels left. -/
def expr (limit : Nat) : Nat → Expr → Walk
  | 0, e => stop limit e.span
  | levels + 1, e => insideExpr (expr limit levels) e

/-- Walks a statement with so many levels left. -/
def stmt (limit : Nat) : Nat → Stmt → Walk
  | 0, s => stop limit s.span
  | levels + 1, s => insideStmt (expr limit levels) (stmt limit levels) s

/-- Walks top-level statements with all levels of the limit left. -/
def program (limit : Nat) (statements : List Stmt) : Walk := each (stmt limit limit) statements

section
variable {R : Walk → Walk → Prop} (hR : Congruence R)
include hR

section
variable {m n d : Nat} (hexpr : ∀ e : Expr, R (stop m e.span) (expr n d e))
include hexpr

theorem expr_related (levels : Nat) (e : Expr) : R (expr m levels e) (expr n (d + levels) e) := by
  induction levels generalizing e with
  | zero => exact hexpr e
  | succ levels ih => exact insideExpr_related hR ih e

variable (hstmt : ∀ s : Stmt, R (stop m s.span) (stmt n d s))
include hstmt

theorem stmt_related (levels : Nat) (s : Stmt) : R (stmt m levels s) (stmt n (d + levels) s) := by
  induction levels generalizing s with
  | zero => exact hstmt s
  | succ levels ih => exact insideStmt_related hR ih (expr_related hR hexpr levels) s

end

/-- The relation holds between a walk over a program and itself, if it holds between the places
where the walk may stop. -/
theorem program_related_self {limit : Nat} (hstop : ∀ span, R (stop limit span) (stop limit span))
    (statements : List Stmt) : R (program limit statements) (program limit statements) := by
  have h := stmt_related (d := 0) hR (fun e => hstop e.span) (fun s => hstop s.span) limit
  rw [Nat.zero_add] at h
  exact each_related hR h statements

end

end LamScope.Walk
