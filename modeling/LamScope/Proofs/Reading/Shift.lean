import LamScope.Syntax.Cursor
import LamScope.Syntax.Expression

/-!
# Shifts

Text that stands behind other text has its places and node numbers moved by fixed amounts. A shift
moves a token, a tree or a fault as a whole; texts, kinds and causes stay as they are.
-/
namespace LamScope

/-- By how much places and node numbers are moved. -/
structure Shift where
  offset : Nat
  line : Nat
  id : Nat
deriving DecidableEq, Repr

namespace Shift
variable (g : Shift)

def zero : Shift := ⟨0, 0, 0⟩

def span (a : Span) : Span := ⟨a.start + g.offset, a.stop + g.offset⟩

def word (w : Word) : Word := ⟨w.text, w.line + g.line, g.span w.span⟩

def token (t : Token) : Token := ⟨g.word t.toWord, t.kind⟩

def node (n : Node) : Node := ⟨n.id + g.id, g.span n.span⟩

def fault (f : SyntaxFault) : SyntaxFault := ⟨f.cause, f.line + g.line, g.span f.span⟩

mutual

def expr : Expr → Expr
  | .literal n value => .literal (g.node n) value
  | .read n name => .read (g.node n) (g.word name)
  | .assign n name value => .assign (g.node n) (g.word name) (expr value)
  | .binary n op left right => .binary (g.node n) op (expr left) (expr right)
  | .logical n op left right => .logical (g.node n) op (expr left) (expr right)
  | .unary n op operand => .unary (g.node n) op (expr operand)
  | .group n inner => .group (g.node n) (expr inner)
  | .call n callee args => .call (g.node n) (expr callee) (exprs args)
  | .property n object name => .property (g.node n) (expr object) (g.word name)
  | .setProperty n object name value =>
      .setProperty (g.node n) (expr object) (g.word name) (expr value)

def exprs : List Expr → List Expr
  | [] => []
  | e :: es => expr e :: exprs es

end

mutual

def stmt : Stmt → Stmt
  | .block n body => .block (g.node n) (stmts body)
  | .var n name init => .var (g.node n) (g.word name) (init.map g.expr)
  | .function n decl => .function (g.node n) (callable decl)
  | .expr n value => .expr (g.node n) (g.expr value)
  | .print n value => .print (g.node n) (g.expr value)
  | .ifThen n cond body => .ifThen (g.node n) (g.expr cond) (stmt body)
  | .ifThenElse n cond body otherwise =>
      .ifThenElse (g.node n) (g.expr cond) (stmt body) (stmt otherwise)
  | .ret n keyword value => .ret (g.node n) (g.word keyword) (value.map g.expr)
  | .loop n cond body => .loop (g.node n) (g.expr cond) (stmt body)
  | .classDef n name methods => .classDef (g.node n) (g.word name) (callables methods)

def stmts : List Stmt → List Stmt
  | [] => []
  | s :: ss => stmt s :: stmts ss

def callable : Callable → Callable
  | ⟨name, params, body⟩ => ⟨g.word name, params.map g.word, stmts body⟩

def callables : List Callable → List Callable
  | [] => []
  | c :: cs => callable c :: callables cs

end

theorem exprs_eq_map (es : List Expr) : g.exprs es = es.map g.expr := by
  induction es with
  | nil => rfl
  | cons e es ih => rw [exprs, ih, List.map_cons]

@[simp] theorem kind_token (t : Token) : (g.token t).kind = t.kind := rfl

@[simp] theorem toWord_token (t : Token) : (g.token t).toWord = g.word t.toWord := rfl

@[simp] theorem start_span (a : Span) : (g.span a).start = a.start + g.offset := rfl

@[simp] theorem span_token (t : Token) : (g.token t).span = g.span t.span := rfl

theorem span_join (a b : Span) : g.span (a.join b) = (g.span a).join (g.span b) := by
  simp [span, Span.join, Nat.add_min_add_right, Nat.add_max_add_right]

@[simp] theorem node_expr (e : Expr) : (g.expr e).node = g.node e.node := by
  cases e <;> rw [expr] <;> rfl

@[simp] theorem span_expr (e : Expr) : (g.expr e).span = g.span e.span :=
  congrArg Node.span (g.node_expr e)

theorem expr_apply (o : Operator) (n : Node) (left right : Expr) :
    g.expr (o.apply n left right) = o.apply (g.node n) (g.expr left) (g.expr right) := by
  cases o <;> rw [Operator.apply, Operator.apply, expr]

@[simp] theorem word_zero (w : Word) : zero.word w = w := rfl

@[simp] theorem token_zero (t : Token) : zero.token t = t := rfl

mutual

theorem expr_zero : ∀ e : Expr, zero.expr e = e
  | .literal .. | .read .. => rfl
  | .assign _ _ value => by rw [expr, expr_zero value]; rfl
  | .binary _ _ left right | .logical _ _ left right => by
      rw [expr, expr_zero left, expr_zero right]
      rfl
  | .unary _ _ e | .group _ e | .property _ e _ => by
      rw [expr, expr_zero e]
      rfl
  | .call _ callee args => by
      rw [expr, expr_zero callee, exprs_zero args]
      rfl
  | .setProperty _ object _ value => by
      rw [expr, expr_zero object, expr_zero value]
      rfl

theorem exprs_zero : ∀ es : List Expr, zero.exprs es = es
  | [] => rfl
  | e :: es => by rw [exprs, expr_zero e, exprs_zero es]

end

theorem map_expr_zero (clause : Option Expr) : clause.map zero.expr = clause := by
  cases clause with
  | none => rfl
  | some e => rw [Option.map_some, expr_zero]

mutual

theorem stmt_zero : ∀ s : Stmt, zero.stmt s = s
  | .block _ body => by
      rw [stmt, stmts_zero body]
      rfl
  | .var _ _ init => by
      rw [stmt, map_expr_zero]
      rfl
  | .function _ decl => by
      rw [stmt, callable_zero decl]
      rfl
  | .expr _ value | .print _ value => by
      rw [stmt, expr_zero]
      rfl
  | .ifThen _ cond body | .loop _ cond body => by
      rw [stmt, expr_zero, stmt_zero body]
      rfl
  | .ifThenElse _ cond body otherwise => by
      rw [stmt, expr_zero, stmt_zero body, stmt_zero otherwise]
      rfl
  | .ret _ _ value => by
      rw [stmt, map_expr_zero]
      rfl
  | .classDef _ _ methods => by
      rw [stmt, callables_zero methods]
      rfl

theorem stmts_zero : ∀ ss : List Stmt, zero.stmts ss = ss
  | [] => rfl
  | s :: ss => by rw [stmts, stmt_zero s, stmts_zero ss]

theorem callable_zero : ∀ decl : Callable, zero.callable decl = decl
  | ⟨_, params, body⟩ => by
      rw [callable, stmts_zero body, funext word_zero, List.map_id']

theorem callables_zero : ∀ decls : List Callable, zero.callables decls = decls
  | [] => rfl
  | decl :: decls => by rw [callables, callable_zero decl, callables_zero decls]

end

end Shift

end LamScope
