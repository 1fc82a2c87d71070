import LamScope.Proofs.Scope.Depth

/-!
# Heights of trees

The height of a tree is the number of levels that a walk needs to get through it. A run of
operators, calls and properties needs one level more than the tallest of its parts, however long it
is. A walk with as many levels as a tree is high is not stopped.
-/
namespace LamScope

namespace Expr

/-- What an expression adds to the height of the run that it ends. -/
def link : Expr → Nat
  | binary .. | logical .. | call .. | property .. => 1
  | _ => 0

mutual

/-- The largest height of the parts of the run of operators, calls and properties that an expression
ends: of the head of the run, and of the operands and arguments along it. An expression that ends no
run is its own head. -/
def reach : Expr → Nat
  | literal .. | read .. => 1
  | assign _ _ value => value.reach + value.link + 1
  | binary _ _ left right | logical _ _ left right => max left.reach (right.reach + right.link)
  | unary _ _ operand => operand.reach + operand.link + 1
  | group _ inner => inner.reach + inner.link + 1
  | call _ callee args => max callee.reach (allHeight args)
  | property _ object _ => object.reach
  | setProperty _ object _ value =>
      max (value.reach + value.link) (object.reach + object.link) + 1

/-- The largest height of some expressions. -/
def allHeight : List Expr → Nat
  | [] => 0
  | e :: es => max (e.reach + e.link) (allHeight es)

end

/-- The height of a run is one more than that of its parts. -/
def height (e : Expr) : Nat := e.reach + e.link

def clauseHeight : Option Expr → Nat
  | none => 0
  | some e => e.height

theorem allHeight_cons (e : Expr) (es : List Expr) :
    allHeight (e :: es) = max e.height (allHeight es) := rfl

theorem allHeight_le_iff {es : List Expr} {n : Nat} :
    allHeight es ≤ n ↔ ∀ e ∈ es, e.height ≤ n := by
  induction es with
  | nil => simp [allHeight]
  | cons e es ih => rw [allHeight_cons, Nat.max_le, ih, List.forall_mem_cons]

theorem link_le (e : Expr) : e.link ≤ 1 := by
  unfold link
  split <;> decide

theorem height_le_of_reach_le {e : Expr} {n : Nat} (h : e.reach ≤ n) : e.height ≤ n + 1 := by
  have hlink := e.link_le
  unfold height
  omega

theorem reach_le_height (e : Expr) : e.reach ≤ e.height := Nat.le_add_right _ _

theorem reach_pos : ∀ e : Expr, 0 < e.reach
  | literal .. | read .. => Nat.one_pos
  | assign .. | unary .. | group .. | setProperty .. => Nat.succ_pos _
  | binary _ _ left _ | logical _ _ left _ =>
      Nat.lt_of_lt_of_le left.reach_pos (Nat.le_max_left _ _)
  | call _ callee _ => Nat.lt_of_lt_of_le callee.reach_pos (Nat.le_max_left _ _)
  | property _ object _ => object.reach_pos

end Expr

mutual

/-- A statement is one higher than what stands directly in it; the bodies of functions and methods
do. -/
def Stmt.height : Stmt → Nat
  | .block _ body => Stmt.allHeight body + 1
  | .var _ _ init => Expr.clauseHeight init + 1
  | .function _ decl => decl.bodyHeight + 1
  | .expr _ value | .print _ value => value.height + 1
  | .ifThen _ cond body | .loop _ cond body => max cond.height body.height + 1
  | .ifThenElse _ cond body otherwise => max (max cond.height body.height) otherwise.height + 1
  | .ret _ _ value => Expr.clauseHeight value + 1
  | .classDef _ _ methods => Callable.allBodyHeight methods + 1

/-- The largest height of some statements. -/
def Stmt.allHeight : List Stmt → Nat
  | [] => 0
  | s :: ss => max s.height (Stmt.allHeight ss)

def Callable.bodyHeight : Callable → Nat
  | ⟨_, _, body⟩ => Stmt.allHeight body

def Callable.allBodyHeight : List Callable → Nat
  | [] => 0
  | decl :: decls => max decl.bodyHeight (Callable.allBodyHeight decls)

end

namespace Stmt

theorem allHeight_le_iff {ss : List Stmt} {n : Nat} :
    allHeight ss ≤ n ↔ ∀ s ∈ ss, s.height ≤ n := by
  induction ss with
  | nil => simp [allHeight]
  | cons s ss ih => rw [allHeight, Nat.max_le, ih, List.forall_mem_cons]

theorem height_pos (s : Stmt) : 0 < s.height := by
  cases s <;> simp [height]

end Stmt

theorem Callable.allBodyHeight_le_iff {decls : List Callable} {n : Nat} :
    allBodyHeight decls ≤ n ↔ ∀ decl ∈ decls, decl.bodyHeight ≤ n := by
  induction decls with
  | nil => simp [allBodyHeight]
  | cons decl decls ih => rw [allBodyHeight, Nat.max_le, ih, List.forall_mem_cons]

namespace Walk

/-- Is not stopped, wherever it starts. -/
def Completes (a : Walk) : Prop := ∀ s, (a s).stopped = none

variable {a b : Walk}

theorem skip_completes : skip.Completes := fun _ => rfl

theorem append_completes (ha : a.Completes) (hb : b.Completes) : (a ++ b).Completes := by
  intro s
  rw [append_of_completed (ha s)]
  exact hb (a s).state

theorem each_completes {α : Type} {f : α → Walk} {as : List α} (h : ∀ a ∈ as, (f a).Completes) :
    (each f as).Completes := by
  induction as with
  | nil => exact skip_completes
  | cons a as ih =>
      have hrest := ih fun b hb => h b (List.mem_cons_of_mem a hb)
      exact append_completes (h a List.mem_cons_self) hrest

section
variable {levels : Nat} {enter : Expr → Walk}
  (henter : ∀ e, e.height ≤ levels → (enter e).Completes)
include henter

theorem each_expr_completes {es : List Expr} (h : Expr.allHeight es ≤ levels) :
    (each enter es).Completes :=
  each_completes fun e he => henter e (Expr.allHeight_le_iff.mp h e he)

/-- A run of operators, calls and properties takes the levels of its parts. -/
theorem chain_completes : ∀ (e : Expr) {after : Walk}, e.reach ≤ levels → after.Completes →
    (chain enter e after).Completes
  | .binary _ _ left right, _, he, h | .logical _ _ left right, _, he, h => by
      have hparts := Nat.max_le.mp he
      exact chain_completes left hparts.1 (append_completes (henter right hparts.2) h)
  | .call _ callee args, _, he, h => by
      have hparts := Nat.max_le.mp he
      have hargs := each_expr_completes henter hparts.2
      exact chain_completes callee hparts.1 (append_completes hargs h)
  | .property _ object _, _, he, h => chain_completes object he h
  | .literal .., _, he, h | .read .., _, he, h | .assign .., _, he, h | .unary .., _, he, h
  | .group .., _, he, h | .setProperty .., _, he, h => append_completes (henter _ he) h

theorem insideExpr_completes : ∀ {e : Expr}, e.height ≤ levels + 1 → (insideExpr enter e).Completes
  | .literal .., _ => skip_completes
  | .read .., _ => fun _ => rfl
  | .assign _ _ value, he => by
      have hvalue := henter value (Nat.le_of_succ_le_succ he)
      exact append_completes (append_completes hvalue fun _ => rfl) fun _ => rfl
  | .binary _ _ left right, he | .logical _ _ left right, he => by
      have hparts := Nat.max_le.mp (Nat.le_of_succ_le_succ he)
      exact chain_completes henter left hparts.1 (henter right hparts.2)
  | .unary _ _ operand, he => henter operand (Nat.le_of_succ_le_succ he)
  | .group _ inner, he => henter inner (Nat.le_of_succ_le_succ he)
  | .call _ callee args, he => by
      have hparts := Nat.max_le.mp (Nat.le_of_succ_le_succ he)
      exact chain_completes henter callee hparts.1 (each_expr_completes henter hparts.2)
  | .property _ object _, he =>
      chain_completes henter object (Nat.le_of_succ_le_succ he) skip_completes
  | .setProperty _ object _ value, he => by
      have hparts := Nat.max_le.mp (Nat.le_of_succ_le_succ he)
      exact append_completes (henter value hparts.1) (henter object hparts.2)

theorem optional_completes {clause : Option Expr} (h : Expr.clauseHeight clause ≤ levels) :
    (optional enter clause).Completes := by
  cases clause with
  | none => exact skip_completes
  | some e => exact henter e h

end

theorem expr_completes (limit : Nat) {levels : Nat} {e : Expr} (h : e.height ≤ levels) :
    (expr limit levels e).Completes := by
  induction levels generalizing e with
  | zero =>
      -- No expression is so low that it needs no level.
      have hpos := Nat.lt_of_lt_of_le e.reach_pos e.reach_le_height
      omega
  | succ levels ih => exact insideExpr_completes (fun _ he => ih he) h

section
variable {levels : Nat} {enter : Stmt → Walk}
  (henter : ∀ s, s.height ≤ levels → (enter s).Completes)
include henter

theorem each_stmt_completes {ss : List Stmt} (h : Stmt.allHeight ss ≤ levels) :
    (each enter ss).Completes :=
  each_completes fun s hs => henter s (Stmt.allHeight_le_iff.mp h s hs)

theorem callable_completes (kind : Enclosure) {decl : Callable} (h : decl.bodyHeight ≤ levels) :
    (callable enter kind decl).Completes := by
  obtain ⟨name, params, body⟩ := decl
  have hparams : (each (fun p => declare p ++ define p) params).Completes :=
    each_completes fun _ _ _ => rfl
  have hbody := append_completes hparams (each_stmt_completes henter h)
  exact fun s => hbody { s with enclosure := kind, scopes := s.scopes.enter }

theorem insideStmt_completes {enterExpr : Expr → Walk}
    (hexpr : ∀ e, e.height ≤ levels → (enterExpr e).Completes) :
    ∀ {s : Stmt}, s.height ≤ levels + 1 → (insideStmt enterExpr enter s).Completes
  | .block _ body, hs => by
      have hbody := each_stmt_completes henter (Nat.le_of_succ_le_succ hs)
      exact fun s => hbody { s with scopes := s.scopes.enter }
  | .var _ name init, hs => by
      have hinit := optional_completes hexpr (Nat.le_of_succ_le_succ hs)
      exact append_completes (append_completes (fun _ => rfl) hinit) fun _ => rfl
  | .function _ decl, hs => by
      have hdecl := callable_completes henter .function (Nat.le_of_succ_le_succ hs)
      exact append_completes (fun _ => rfl) hdecl
  | .expr _ value, hs | .print _ value, hs => hexpr value (Nat.le_of_succ_le_succ hs)
  | .ifThen _ cond body, hs | .loop _ cond body, hs => by
      have hparts := Nat.max_le.mp (Nat.le_of_succ_le_succ hs)
      exact append_completes (hexpr cond hparts.1) (henter body hparts.2)
  | .ifThenElse _ cond body otherwise, hs => by
      obtain ⟨hfirst, hotherwise⟩ := Nat.max_le.mp (Nat.le_of_succ_le_succ hs)
      have hparts := Nat.max_le.mp hfirst
      have hbody := append_completes (hexpr cond hparts.1) (henter body hparts.2)
      exact append_completes hbody (henter otherwise hotherwise)
  | .ret _ keyword value, hs => by
      have hvalue := optional_completes hexpr (Nat.le_of_succ_le_succ hs)
      exact append_completes (fun _ => rfl) hvalue
  | .classDef _ name methods, hs => by
      have hbodies := Callable.allBodyHeight_le_iff.mp (Nat.le_of_succ_le_succ hs)
      have hmethods : (each (callable enter .method) methods).Completes :=
        each_completes fun decl hdecl => callable_completes henter .method (hbodies decl hdecl)
      exact append_completes (fun _ => rfl) hmethods

end

theorem stmt_completes (limit : Nat) {levels : Nat} {s : Stmt} (h : s.height ≤ levels) :
    (stmt limit levels s).Completes := by
  induction levels generalizing s with
  | zero =>
      have hpos := s.height_pos
      omega
  | succ levels ih =>
      exact insideStmt_completes (fun _ hs => ih hs) (fun _ he => expr_completes limit he) h

/-- A walk whose limit is the height of the program completes. -/
theorem program_completes {limit : Nat} {statements : List Stmt}
    (h : Stmt.allHeight statements ≤ limit) : (program limit statements).Completes :=
  each_stmt_completes (fun _ hs => stmt_completes limit hs) h

end Walk

end LamScope
