import LamScope.Proofs.Scope.Height
import LamScope.Syntax.Reading

/-!
# Levels of nodes

Every node of a program stands at a level: top-level statements at the first one, and what stands
directly in a node one level further in. A run of operators, calls and properties stands at one
level with all its links. The waypoints of a program are its nodes with their levels and the lines
of its words, in the order of the walk; both are read off the tree alone. Main statement: a walk is
stopped at the first node beyond the limit, with the line seen last before it, and if there is such
a node then some statement is higher than the limit. Names and scopes do not matter.
-/
namespace LamScope

/-- What a walk comes to. -/
inductive Waypoint where
  | node (level : Nat) (span : Span)
  /-- The line of a declaration, a variable that is read or assigned, or a `return`. -/
  | line (n : Nat)

namespace Waypoint

/-- Where a walk that may go through `limit` levels is stopped, if the given line was seen last: at
the first node that stands one level further in, with the line seen last before it. -/
def stop? (limit : Nat) : Nat → List Waypoint → Option TooDeep
  | _, [] => none
  | _, line n :: ws => stop? limit n ws
  | seen, node level span :: ws =>
      if level = limit + 1 then some ⟨seen, span, limit⟩ else stop? limit seen ws

/-- The line seen last, after the given one. -/
def lineAfter : Nat → List Waypoint → Nat
  | seen, [] => seen
  | _, line n :: ws => lineAfter n ws
  | seen, node .. :: ws => lineAfter seen ws

variable (limit seen : Nat)

theorem stop?_append (xs ys : List Waypoint) :
    stop? limit seen (xs ++ ys) =
      (stop? limit seen xs).or (stop? limit (lineAfter seen xs) ys) := by
  induction xs generalizing seen with
  | nil => rfl
  | cons w xs ih =>
      cases w with
      | line n => exact ih n
      | node level span =>
          rw [List.cons_append, stop?, stop?]
          split
          · rfl
          · exact ih seen

theorem lineAfter_append (xs ys : List Waypoint) :
    lineAfter seen (xs ++ ys) = lineAfter (lineAfter seen xs) ys := by
  induction xs generalizing seen with
  | nil => rfl
  | cons w xs ih => cases w <;> exact ih _

theorem stop?_append_eq_none_iff (xs ys : List Waypoint) :
    stop? limit seen (xs ++ ys) = none ↔
      stop? limit seen xs = none ∧ stop? limit (lineAfter seen xs) ys = none := by
  rw [stop?_append, Option.or_eq_none_iff]

variable {limit}

/-- A node that is not beyond the limit stops nothing. -/
theorem stop?_node {level : Nat} (h : level ≤ limit) (span : Span) (ws : List Waypoint) :
    stop? limit seen (node level span :: ws) = stop? limit seen ws := by
  have hne : ¬ level = limit + 1 := by omega
  exact if_neg hne

end Waypoint

mutual

/-- The waypoints of an expression at a level. Operands, arguments and the head of a run stand one
level further in than the run. -/
def Expr.waypoints : Nat → Expr → List Waypoint
  | level, literal node _ => [.node level node.span]
  | level, read node name => [.node level node.span, .line name.line]
  | level, assign node name value =>
      .node level node.span :: (value.waypoints (level + 1) ++ [.line name.line])
  | level, binary node _ left right | level, logical node _ left right =>
      .node level node.span ::
        (left.waypoints (level + 1 - left.link) ++ right.waypoints (level + 1))
  | level, unary node _ operand => .node level node.span :: operand.waypoints (level + 1)
  | level, group node inner => .node level node.span :: inner.waypoints (level + 1)
  | level, call node callee args =>
      .node level node.span ::
        (callee.waypoints (level + 1 - callee.link) ++ allWaypoints (level + 1) args)
  | level, property node object _ =>
      .node level node.span :: object.waypoints (level + 1 - object.link)
  | level, setProperty node object _ value =>
      .node level node.span :: (value.waypoints (level + 1) ++ object.waypoints (level + 1))

def Expr.allWaypoints : Nat → List Expr → List Waypoint
  | _, [] => []
  | level, e :: es => e.waypoints level ++ allWaypoints level es

end

def Expr.clauseWaypoints (level : Nat) : Option Expr → List Waypoint
  | none => []
  | some e => e.waypoints level

mutual

/-- The waypoints of a statement at a level. The body of a function or method stands one level
further in than the statement that defines it. -/
def Stmt.waypoints : Nat → Stmt → List Waypoint
  | level, block node body => .node level node.span :: allWaypoints (level + 1) body
  | level, var node name init =>
      .node level node.span :: .line name.line :: Expr.clauseWaypoints (level + 1) init
  | level, function node decl =>
      .node level node.span :: .line decl.name.line :: callableWaypoints (level + 1) decl
  | level, expr node value | level, print node value =>
      .node level node.span :: value.waypoints (level + 1)
  | level, ifThen node cond body | level, loop node cond body =>
      .node level node.span :: (cond.waypoints (level + 1) ++ body.waypoints (level + 1))
  | level, ifThenElse node cond body otherwise =>
      .node level node.span ::
        (cond.waypoints (level + 1) ++ body.waypoints (level + 1)
          ++ otherwise.waypoints (level + 1))
  | level, ret node keyword value =>
      .node level node.span :: .line keyword.line :: Expr.clauseWaypoints (level + 1) value
  | level, classDef node name methods =>
      .node level node.span :: .line name.line :: methodWaypoints (level + 1) methods

def Stmt.allWaypoints : Nat → List Stmt → List Waypoint
  | _, [] => []
  | level, s :: ss => s.waypoints level ++ allWaypoints level ss

/-- Parameters are declared before the body. -/
def Stmt.callableWaypoints : Nat → Callable → List Waypoint
  | level, ⟨_, params, body⟩ => params.map (.line ·.line) ++ allWaypoints level body

def Stmt.methodWaypoints : Nat → List Callable → List Waypoint
  | _, [] => []
  | level, decl :: decls => callableWaypoints level decl ++ methodWaypoints level decls

end

/-- The first waypoint of an expression is the expression itself. -/
theorem Expr.exists_waypoints_eq_cons (e : Expr) (level : Nat) :
    ∃ ws, e.waypoints level = .node level e.span :: ws := by
  cases e <;> exact ⟨_, rfl⟩

theorem Stmt.exists_waypoints_eq_cons (s : Stmt) (level : Nat) :
    ∃ ws, s.waypoints level = .node level s.span :: ws := by
  cases s <;> exact ⟨_, rfl⟩

/-! ### Heights -/

section
open Waypoint

variable {limit level seen : Nat}

/-- A node is one higher than what stands one level further in. -/
theorem Waypoint.stop?_node_eq_none_iff (height : Nat) (hl : level ≤ limit + 1) (span : Span)
    {ws : List Waypoint}
    (h : level + 1 ≤ limit + 1 →
      (stop? limit seen ws = none ↔ level + 1 + height ≤ limit + 1)) :
    stop? limit seen (node level span :: ws) = none ↔ level + (height + 1) ≤ limit + 1 := by
  rcases Nat.lt_or_ge limit level with hlt | hle
  · have heq : level = limit + 1 := by omega
    rw [stop?, if_pos heq]
    simp only [reduceCtorEq, false_iff]
    omega
  · rw [stop?_node seen hle, h (by omega)]
    omega

/-- The lines of parameters stop nothing. -/
theorem Waypoint.exists_stop?_lines (params : List Word) (ws : List Waypoint) :
    ∃ last, stop? limit seen (params.map (.line ·.line) ++ ws) = stop? limit last ws := by
  induction params generalizing seen with
  | nil => exact ⟨seen, rfl⟩
  | cons p params ih => exact ih

mutual

/-- No node of an expression is beyond the limit just if the expression is not higher than the
levels that are left. -/
theorem Expr.stop?_eq_none_iff : ∀ (e : Expr) {level : Nat} (seen : Nat), level ≤ limit + 1 →
    (stop? limit seen (e.waypoints level) = none ↔ level + e.height ≤ limit + 1)
  | .literal node _, level, seen, hl | .read node _, level, seen, hl =>
      stop?_node_eq_none_iff 0 hl node.span (iff_of_true rfl ·)
  | .assign node name value, level, seen, hl => by
      apply stop?_node_eq_none_iff value.height hl
      intro hin
      rw [stop?_append_eq_none_iff, value.stop?_eq_none_iff seen hin]
      exact and_iff_left rfl
  | .binary _ _ left right, level, seen, hl | .logical _ _ left right, level, seen, hl => by
      apply stop?_node_eq_none_iff (max left.reach right.height) hl
      intro hin
      have hlink := left.link_le
      rw [stop?_append_eq_none_iff, left.stop?_eq_none_iff seen (by omega),
        right.stop?_eq_none_iff _ hin, height.eq_def left]
      omega
  | .unary node _ operand, level, seen, hl =>
      stop?_node_eq_none_iff _ hl node.span (operand.stop?_eq_none_iff seen)
  | .group node inner, level, seen, hl =>
      stop?_node_eq_none_iff _ hl node.span (inner.stop?_eq_none_iff seen)
  | .call _ callee args, level, seen, hl => by
      apply stop?_node_eq_none_iff (max callee.reach (allHeight args)) hl
      intro hin
      have hlink := callee.link_le
      rw [stop?_append_eq_none_iff, callee.stop?_eq_none_iff seen (by omega),
        allStop?_eq_none_iff args _ hin, height.eq_def callee]
      omega
  | .property _ object _, level, seen, hl => by
      apply stop?_node_eq_none_iff object.reach hl
      intro hin
      have hlink := object.link_le
      rw [object.stop?_eq_none_iff seen (by omega), height.eq_def object]
      omega
  | .setProperty _ object _ value, level, seen, hl => by
      apply stop?_node_eq_none_iff (max value.height object.height) hl
      intro hin
      rw [stop?_append_eq_none_iff, value.stop?_eq_none_iff seen hin,
        object.stop?_eq_none_iff _ hin]
      omega

theorem Expr.allStop?_eq_none_iff : ∀ (es : List Expr) {level : Nat} (seen : Nat),
    level ≤ limit + 1 →
    (stop? limit seen (allWaypoints level es) = none ↔ level + allHeight es ≤ limit + 1)
  | [], level, seen, hl => iff_of_true rfl hl
  | e :: es, level, seen, hl => by
      rw [allWaypoints, stop?_append_eq_none_iff, e.stop?_eq_none_iff seen hl,
        allStop?_eq_none_iff es _ hl, allHeight_cons]
      omega

end

theorem Expr.clauseStop?_eq_none_iff (clause : Option Expr) (seen : Nat) (hl : level ≤ limit + 1) :
    stop? limit seen (clauseWaypoints level clause) = none ↔
      level + clauseHeight clause ≤ limit + 1 := by
  cases clause with
  | none => exact iff_of_true rfl hl
  | some e => exact e.stop?_eq_none_iff seen hl

mutual

theorem Stmt.stop?_eq_none_iff : ∀ (s : Stmt) {level : Nat} (seen : Nat), level ≤ limit + 1 →
    (stop? limit seen (s.waypoints level) = none ↔ level + s.height ≤ limit + 1)
  | .block node body, level, seen, hl =>
      stop?_node_eq_none_iff _ hl node.span (allStop?_eq_none_iff body seen)
  | .var node name init, level, seen, hl =>
      stop?_node_eq_none_iff _ hl node.span (Expr.clauseStop?_eq_none_iff init name.line)
  | .function node decl, level, seen, hl =>
      stop?_node_eq_none_iff _ hl node.span (callableStop?_eq_none_iff decl decl.name.line)
  | .expr node value, level, seen, hl | .print node value, level, seen, hl =>
      stop?_node_eq_none_iff _ hl node.span (value.stop?_eq_none_iff seen)
  | .ifThen _ cond body, level, seen, hl | .loop _ cond body, level, seen, hl => by
      apply stop?_node_eq_none_iff (max cond.height body.height) hl
      intro hin
      rw [stop?_append_eq_none_iff, cond.stop?_eq_none_iff seen hin, body.stop?_eq_none_iff _ hin]
      omega
  | .ifThenElse _ cond body otherwise, level, seen, hl => by
      apply stop?_node_eq_none_iff (max (max cond.height body.height) otherwise.height) hl
      intro hin
      rw [stop?_append_eq_none_iff, stop?_append_eq_none_iff, cond.stop?_eq_none_iff seen hin,
        body.stop?_eq_none_iff _ hin, otherwise.stop?_eq_none_iff _ hin]
      omega
  | .ret node keyword value, level, seen, hl =>
      stop?_node_eq_none_iff _ hl node.span (Expr.clauseStop?_eq_none_iff value keyword.line)
  | .classDef node name methods, level, seen, hl =>
      stop?_node_eq_none_iff _ hl node.span (methodStop?_eq_none_iff methods name.line)

theorem Stmt.allStop?_eq_none_iff : ∀ (ss : List Stmt) {level : Nat} (seen : Nat),
    level ≤ limit + 1 →
    (stop? limit seen (allWaypoints level ss) = none ↔ level + allHeight ss ≤ limit + 1)
  | [], level, seen, hl => iff_of_true rfl hl
  | s :: ss, level, seen, hl => by
      rw [allWaypoints, stop?_append_eq_none_iff, s.stop?_eq_none_iff seen hl,
        allStop?_eq_none_iff ss _ hl, allHeight]
      omega

theorem Stmt.callableStop?_eq_none_iff : ∀ (decl : Callable) {level : Nat} (seen : Nat),
    level ≤ limit + 1 →
    (stop? limit seen (callableWaypoints level decl) = none ↔
      level + decl.bodyHeight ≤ limit + 1)
  | ⟨_, params, body⟩, level, seen, hl => by
      obtain ⟨last, hlast⟩ := exists_stop?_lines params (allWaypoints level body)
      rw [callableWaypoints, hlast]
      exact allStop?_eq_none_iff body last hl

theorem Stmt.methodStop?_eq_none_iff : ∀ (decls : List Callable) {level : Nat} (seen : Nat),
    level ≤ limit + 1 →
    (stop? limit seen (methodWaypoints level decls) = none ↔
      level + Callable.allBodyHeight decls ≤ limit + 1)
  | [], level, seen, hl => iff_of_true rfl hl
  | decl :: decls, level, seen, hl => by
      rw [methodWaypoints, stop?_append_eq_none_iff, callableStop?_eq_none_iff decl seen hl,
        methodStop?_eq_none_iff decls _ hl, Callable.allBodyHeight]
      omega

end

end

/-! ### Walks -/

/-- The visit is stopped by the first waypoint beyond the limit; if there is none, it has seen the
lines of all waypoints. -/
structure Visit.Passes (v : Visit) (limit seen : Nat) (ws : List Waypoint) : Prop where
  stopped : v.stopped = Waypoint.stop? limit seen ws
  line : v.stopped = none → v.state.line = Waypoint.lineAfter seen ws

namespace Walk

/-- Wherever it starts, the walk comes to the waypoints. -/
def Passes (limit : Nat) (w : Walk) (ws : List Waypoint) : Prop :=
  ∀ s, (w s).Passes limit s.line ws

section
variable {limit level levels : Nat} {a b : Walk} {xs ys : List Waypoint}

theorem skip_passes : skip.Passes limit [] := fun _ => ⟨rfl, fun _ => rfl⟩

theorem append_passes (ha : a.Passes limit xs) (hb : b.Passes limit ys) :
    (a ++ b).Passes limit (xs ++ ys) := by
  intro s
  have hfirst := ha s
  cases h : (a s).stopped with
  | some t =>
      have hstop : Waypoint.stop? limit s.line xs = some t := hfirst.stopped.symm.trans h
      rw [append_of_stopped h]
      constructor
      · rw [Waypoint.stop?_append, hstop, h]
        rfl
      · intro hnone
        rw [h] at hnone
        cases hnone
  | none =>
      have hsecond := hb (a s).state
      have hstop : Waypoint.stop? limit s.line xs = none := hfirst.stopped.symm.trans h
      rw [hfirst.line h] at hsecond
      rw [append_of_completed h]
      constructor
      · rw [Waypoint.stop?_append, hstop]
        exact hsecond.stopped
      · intro hnone
        rw [Waypoint.lineAfter_append]
        exact hsecond.line hnone

/-- A node that is not beyond the limit may stand before what a walk comes to. -/
theorem Passes.node (h : a.Passes limit xs) (hl : level ≤ limit) (span : Span) :
    a.Passes limit (.node level span :: xs) := by
  intro s
  constructor
  · rw [Waypoint.stop?_node s.line hl]
    exact (h s).stopped
  · exact (h s).line

theorem stop_passes (hl : level = limit + 1) (span : Span) (ws : List Waypoint) :
    (stop limit span).Passes limit (.node level span :: ws) := by
  intro s
  constructor
  · rw [Waypoint.stop?, if_pos hl]
    rfl
  · intro hnone
    cases hnone

theorem declare_passes (w : Word) : (declare w).Passes limit [.line w.line] :=
  fun _ => ⟨rfl, fun _ => rfl⟩

theorem define_passes (w : Word) : (define w).Passes limit [] := fun _ => ⟨rfl, fun _ => rfl⟩

theorem declare_define_passes (w : Word) : (declare w ++ define w).Passes limit [.line w.line] :=
  append_passes (declare_passes w) (define_passes w)

theorem inFrame_passes (h : a.Passes limit xs) : (inFrame a).Passes limit xs := by
  intro s
  have hbody := h { s with scopes := s.scopes.enter }
  exact ⟨hbody.stopped, hbody.line⟩

theorem inCallable_passes (kind : Enclosure) (h : a.Passes limit xs) :
    (inCallable kind a).Passes limit xs := by
  intro s
  have hbody := h { s with enclosure := kind }
  exact ⟨hbody.stopped, hbody.line⟩

section
variable {enter : Expr → Walk} (henter : ∀ e, (enter e).Passes limit (e.waypoints (level + 1)))
include henter

theorem each_expr_passes (es : List Expr) :
    (each enter es).Passes limit (Expr.allWaypoints (level + 1) es) := by
  induction es with
  | nil => exact skip_passes
  | cons e es ih => exact append_passes (henter e) ih

/-- The links of a run stand at the level of the run, which is not beyond the limit. -/
theorem chain_passes (hl : level ≤ limit) : ∀ (e : Expr) {after : Walk} {ys : List Waypoint},
    after.Passes limit ys →
    (chain enter e after).Passes limit (e.waypoints (level + 1 - e.link) ++ ys)
  | .binary node _ left right, _, _, h | .logical node _ left right, _, _, h => by
      have hrest := chain_passes hl left (append_passes (henter right) h)
      rw [← List.append_assoc] at hrest
      exact hrest.node hl node.span
  | .call node callee args, _, _, h => by
      have hrest := chain_passes hl callee (append_passes (each_expr_passes henter args) h)
      rw [← List.append_assoc] at hrest
      exact hrest.node hl node.span
  | .property node object _, _, _, h => (chain_passes hl object h).node hl node.span
  | .literal .., _, _, h | .read .., _, _, h | .assign .., _, _, h | .unary .., _, _, h
  | .group .., _, _, h | .setProperty .., _, _, h => append_passes (henter _) h

theorem insideExpr_passes (hl : level ≤ limit) (e : Expr) :
    (insideExpr enter e).Passes limit (e.waypoints level) := by
  cases e with
  | literal node => exact skip_passes.node hl node.span
  | read node name =>
      have hread : (readName node.id name).Passes limit [.line name.line] :=
        fun _ => ⟨rfl, fun _ => rfl⟩
      exact hread.node hl node.span
  | assign node name value =>
      have hline : (atLine name.line).Passes limit [.line name.line] :=
        fun _ => ⟨rfl, fun _ => rfl⟩
      have hrecord : (recordName node.id name).Passes limit [] := fun _ => ⟨rfl, fun _ => rfl⟩
      have hall := append_passes (append_passes (henter value) hline) hrecord
      rw [List.append_nil] at hall
      exact hall.node hl node.span
  | binary node _ left right | logical node _ left right =>
      exact (chain_passes henter hl left (henter right)).node hl node.span
  | unary node _ operand => exact (henter operand).node hl node.span
  | group node inner => exact (henter inner).node hl node.span
  | call node callee args =>
      exact (chain_passes henter hl callee (each_expr_passes henter args)).node hl node.span
  | property node object _ =>
      have hobject := chain_passes henter hl object skip_passes
      rw [List.append_nil] at hobject
      exact hobject.node hl node.span
  | setProperty node object _ value =>
      exact (append_passes (henter value) (henter object)).node hl node.span

theorem optional_passes (clause : Option Expr) :
    (optional enter clause).Passes limit (Expr.clauseWaypoints (level + 1) clause) := by
  cases clause with
  | none => exact skip_passes
  | some e => exact henter e

end

theorem expr_passes (h : level + levels = limit + 1) (e : Expr) :
    (expr limit levels e).Passes limit (e.waypoints level) := by
  induction levels generalizing level e with
  | zero =>
      obtain ⟨ws, hws⟩ := e.exists_waypoints_eq_cons level
      rw [hws]
      exact stop_passes h e.span ws
  | succ levels ih =>
      have hin : level + 1 + levels = limit + 1 := by omega
      exact insideExpr_passes (ih hin) (by omega) e

section
variable {enter : Stmt → Walk} (henter : ∀ s, (enter s).Passes limit (s.waypoints (level + 1)))
include henter

theorem each_stmt_passes (ss : List Stmt) :
    (each enter ss).Passes limit (Stmt.allWaypoints (level + 1) ss) := by
  induction ss with
  | nil => exact skip_passes
  | cons s ss ih => exact append_passes (henter s) ih

theorem callable_passes (kind : Enclosure) (decl : Callable) :
    (callable enter kind decl).Passes limit (Stmt.callableWaypoints (level + 1) decl) := by
  obtain ⟨name, params, body⟩ := decl
  have hparams : (each (fun p => declare p ++ define p) params).Passes limit
      (params.map (.line ·.line)) := by
    induction params with
    | nil => exact skip_passes
    | cons p params ih => exact append_passes (declare_define_passes p) ih
  have hbody := append_passes hparams (each_stmt_passes henter body)
  exact inCallable_passes kind (inFrame_passes hbody)

theorem methods_passes (decls : List Callable) :
    (each (callable enter .method) decls).Passes limit
      (Stmt.methodWaypoints (level + 1) decls) := by
  induction decls with
  | nil => exact skip_passes
  | cons decl decls ih => exact append_passes (callable_passes henter .method decl) ih

theorem insideStmt_passes {enterExpr : Expr → Walk}
    (hexpr : ∀ e, (enterExpr e).Passes limit (e.waypoints (level + 1))) (hl : level ≤ limit)
    (s : Stmt) : (insideStmt enterExpr enter s).Passes limit (s.waypoints level) := by
  cases s with
  | block node body => exact (inFrame_passes (each_stmt_passes henter body)).node hl node.span
  | var node name init =>
      have hinit := append_passes (declare_passes name) (optional_passes hexpr init)
      have hall := append_passes hinit (define_passes name)
      rw [List.append_nil] at hall
      exact hall.node hl node.span
  | function node decl =>
      have hdecl := callable_passes henter .function decl
      exact (append_passes (declare_define_passes decl.name) hdecl).node hl node.span
  | expr node value | print node value => exact (hexpr value).node hl node.span
  | ifThen node cond body | loop node cond body =>
      exact (append_passes (hexpr cond) (henter body)).node hl node.span
  | ifThenElse node cond body otherwise =>
      have hbody := append_passes (hexpr cond) (henter body)
      exact (append_passes hbody (henter otherwise)).node hl node.span
  | ret node keyword value =>
      have hkeyword : (checkReturn keyword).Passes limit [.line keyword.line] :=
        fun _ => ⟨rfl, fun _ => rfl⟩
      exact (append_passes hkeyword (optional_passes hexpr value)).node hl node.span
  | classDef node name methods =>
      have hmethods := methods_passes henter methods
      exact (append_passes (declare_define_passes name) hmethods).node hl node.span

end

theorem stmt_passes (h : level + levels = limit + 1) (s : Stmt) :
    (stmt limit levels s).Passes limit (s.waypoints level) := by
  induction levels generalizing level s with
  | zero =>
      obtain ⟨ws, hws⟩ := s.exists_waypoints_eq_cons level
      rw [hws]
      exact stop_passes h s.span ws
  | succ levels ih =>
      have hin : level + 1 + levels = limit + 1 := by omega
      exact insideStmt_passes (ih hin) (expr_passes hin) (by omega) s

theorem program_passes (limit : Nat) (statements : List Stmt) :
    (program limit statements).Passes limit (Stmt.allWaypoints 1 statements) :=
  each_stmt_passes (fun s => stmt_passes (Nat.add_comm 1 limit) s) statements

end

end Walk

/-- From all surroundings outside of all levels, a resolver completes just if no statement is higher
than the limit; otherwise it is stopped at the first node beyond the limit, with the line seen last
before it. At the start that is the first line. -/
theorem stopped_program (limit : Nat) (statements : List Stmt) (s : Surroundings) :
    let outside := s.atDepth 0
    ((Resolver.program limit statements outside).stopped = none ↔
        ∀ st ∈ statements, st.height ≤ limit) ∧
      (Resolver.program limit statements outside).stopped =
        Waypoint.stop? limit s.line (Stmt.allWaypoints 1 statements) ∧
      (resolve limit statements).stopped =
        Waypoint.stop? limit 1 (Stmt.allWaypoints 1 statements) := by
  intro outside
  have hwalk : Resolver.program limit statements outside = Walk.program limit statements outside :=
    Resolver.program_eq_of_depth_eq_zero rfl limit statements
  have hstopped := (Walk.program_passes limit statements outside).stopped
  have hstart := (Walk.program_passes limit statements .start).stopped
  rw [← resolve_eq] at hstart
  rw [hwalk]
  refine ⟨?_, hstopped, hstart⟩
  rw [hstopped, Stmt.allStop?_eq_none_iff statements outside.line (Nat.le_add_left 1 limit),
    ← Stmt.allHeight_le_iff]
  omega

/-- The first node at the fifth level is the group: it stands in a product, in a sum, in a statement
in a block. -/
example :
    let source := "{ var a;
      print a + (a + 1) * -a; }"
    (resolve 4 (Program.ofSource source).statements).stopped = some ⟨2, ⟨25, 32⟩, 4⟩ := by
  decide +kernel

end LamScope
