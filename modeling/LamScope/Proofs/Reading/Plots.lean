import LamScope.Proofs.Reading.Numbers

/-!
# Plots

A node holds other nodes and words. Its plot is its span with the spans of what it holds, and the
plots of a tree are those of all its nodes.
-/
namespace LamScope

/-- The other span lies within this one. -/
def Span.Covers (a b : Span) : Prop := a.start ≤ b.start ∧ b.stop ≤ a.stop

namespace Span

theorem Covers.refl (a : Span) : a.Covers a := ⟨Nat.le_refl _, Nat.le_refl _⟩

theorem Covers.trans {a b c : Span} (h : a.Covers b) (h' : b.Covers c) : a.Covers c :=
  ⟨Nat.le_trans h.1 h'.1, Nat.le_trans h'.2 h.2⟩

theorem covers_join_left (a b : Span) : (a.join b).Covers a :=
  ⟨Nat.min_le_left _ _, Nat.le_max_left _ _⟩

theorem covers_join_right (a b : Span) : (a.join b).Covers b :=
  ⟨Nat.min_le_right _ _, Nat.le_max_right _ _⟩

end Span

/-- The span of a node, and those of the words and nodes that it holds. -/
structure Plot where
  span : Span
  held : List Span
deriving DecidableEq, Repr

mutual

def Expr.plots : Expr → List Plot
  | .literal node _ => [⟨node.span, []⟩]
  | .read node name => [⟨node.span, [name.span]⟩]
  | .assign node name value => ⟨node.span, [name.span, value.span]⟩ :: value.plots
  | .binary node _ left right | .logical node _ left right =>
      ⟨node.span, [left.span, right.span]⟩ :: (left.plots ++ right.plots)
  | .unary node _ e | .group node e => ⟨node.span, [e.span]⟩ :: e.plots
  | .call node callee args =>
      ⟨node.span, callee.span :: args.map Expr.span⟩ :: (callee.plots ++ Expr.allPlots args)
  | .property node object name => ⟨node.span, [object.span, name.span]⟩ :: object.plots
  | .setProperty node object name value =>
      ⟨node.span, [object.span, name.span, value.span]⟩ :: (object.plots ++ value.plots)

def Expr.allPlots : List Expr → List Plot
  | [] => []
  | e :: es => e.plots ++ Expr.allPlots es

end

namespace Expr

def clauseSpans (clause : Option Expr) : List Span := (clause.map span).toList

def clausePlots : Option Expr → List Plot
  | none => []
  | some e => e.plots

end Expr

/-- The spans of a name, of parameters and of the statements of a body. They are held by the node
of a function, or by that of the class for a method, which has no node. -/
def Callable.spans (c : Callable) : List Span :=
  c.name.span :: c.params.map Word.span ++ c.body.map Stmt.span

mutual

def Stmt.plots : Stmt → List Plot
  | .block node body => ⟨node.span, body.map Stmt.span⟩ :: Stmt.allPlots body
  | .var node name init =>
      ⟨node.span, name.span :: Expr.clauseSpans init⟩ :: Expr.clausePlots init
  | .function node decl => ⟨node.span, decl.spans⟩ :: decl.plots
  | .expr node value | .print node value => ⟨node.span, [value.span]⟩ :: value.plots
  | .ifThen node cond body | .loop node cond body =>
      ⟨node.span, [cond.span, body.span]⟩ :: (cond.plots ++ body.plots)
  | .ifThenElse node cond body otherwise =>
      ⟨node.span, [cond.span, body.span, otherwise.span]⟩ ::
        (cond.plots ++ (body.plots ++ otherwise.plots))
  | .ret node keyword value =>
      ⟨node.span, keyword.span :: Expr.clauseSpans value⟩ :: Expr.clausePlots value
  | .classDef node name methods =>
      ⟨node.span, name.span :: methods.flatMap Callable.spans⟩ :: Callable.allPlots methods

def Stmt.allPlots : List Stmt → List Plot
  | [] => []
  | s :: ss => s.plots ++ Stmt.allPlots ss

def Callable.plots : Callable → List Plot
  | ⟨_, _, body⟩ => Stmt.allPlots body

def Callable.allPlots : List Callable → List Plot
  | [] => []
  | c :: cs => c.plots ++ Callable.allPlots cs

end

theorem Expr.exists_plot (e : Expr) : ∃ held, ⟨e.span, held⟩ ∈ e.plots := by
  cases e <;> exact ⟨_, List.mem_cons_self⟩

theorem Stmt.exists_plot (s : Stmt) : ∃ held, ⟨s.span, held⟩ ∈ s.plots := by
  cases s <;> exact ⟨_, List.mem_cons_self⟩

theorem Operator.plots_apply (o : Operator) (node : Node) (left right : Expr) :
    (o.apply node left right).plots =
      ⟨node.span, [left.span, right.span]⟩ :: (left.plots ++ right.plots) := by
  cases o <;> rw [Operator.apply, Expr.plots]

theorem Expr.plots_subset {e : Expr} {es : List Expr} (h : e ∈ es) :
    e.plots ⊆ Expr.allPlots es := by
  induction es with
  | nil => cases h
  | cons d ds ih =>
      rw [allPlots]
      rcases List.mem_cons.mp h with rfl | h
      · exact List.subset_append_left _ _
      · exact List.Subset.trans (ih h) (List.subset_append_right _ _)

theorem Stmt.plots_subset {s : Stmt} {ss : List Stmt} (h : s ∈ ss) :
    s.plots ⊆ Stmt.allPlots ss := by
  induction ss with
  | nil => cases h
  | cons r rs ih =>
      rw [allPlots]
      rcases List.mem_cons.mp h with rfl | h
      · exact List.subset_append_left _ _
      · exact List.Subset.trans (ih h) (List.subset_append_right _ _)

section
open NodeTree

mutual

/-- The spans of the plots are those of the nodes. -/
theorem Expr.map_span_plots : ∀ e : Expr, e.plots.map Plot.span = e.tree.nodes.map Node.span
  | .literal .. | .read .. => rfl
  | .assign _ _ value => by
      simp only [plots, tree, nodes, allNodes, List.map_cons, List.append_nil, map_span_plots value]
  | .binary _ _ left right | .logical _ _ left right => by
      simp only [plots, tree, nodes, allNodes, List.map_cons, List.map_append, List.append_nil,
        map_span_plots left, map_span_plots right]
  | .unary _ _ e | .group _ e | .property _ e _ => by
      simp only [plots, tree, nodes, allNodes, List.map_cons, List.append_nil, map_span_plots e]
  | .call _ callee args => by
      simp only [plots, tree, nodes, allNodes, List.map_cons, List.map_append,
        map_span_plots callee, map_span_allPlots args]
  | .setProperty _ object _ value => by
      simp only [plots, tree, nodes, allNodes, List.map_cons, List.map_append, List.append_nil,
        map_span_plots object, map_span_plots value]

theorem Expr.map_span_allPlots : ∀ es : List Expr,
    (Expr.allPlots es).map Plot.span = (allNodes (Expr.allTrees es)).map Node.span
  | [] => rfl
  | e :: es => by
      simp only [allPlots, allTrees, allNodes, List.map_append, map_span_plots e,
        map_span_allPlots es]

end

theorem Expr.map_span_clausePlots (clause : Option Expr) :
    (Expr.clausePlots clause).map Plot.span =
      (allNodes (Expr.clauseTrees clause)).map Node.span := by
  cases clause with
  | none => rfl
  | some e => simp only [clausePlots, clauseTrees, allNodes, List.append_nil, e.map_span_plots]

mutual

theorem Stmt.map_span_plots : ∀ s : Stmt, s.plots.map Plot.span = s.tree.nodes.map Node.span
  | .block _ body => by
      simp only [Stmt.plots, Stmt.tree, nodes, List.map_cons, Stmt.map_span_allPlots body]
  | .var _ _ init => by
      simp only [Stmt.plots, Stmt.tree, nodes, List.map_cons, Expr.map_span_clausePlots]
  | .function _ decl => by
      simp only [Stmt.plots, Stmt.tree, nodes, List.map_cons, Callable.map_span_plots decl]
  | .expr _ value | .print _ value => by
      simp only [Stmt.plots, Stmt.tree, nodes, allNodes, List.map_cons, List.append_nil,
        Expr.map_span_plots value]
  | .ifThen _ cond body | .loop _ cond body => by
      simp only [Stmt.plots, Stmt.tree, nodes, allNodes, List.map_cons, List.map_append,
        List.append_nil, Expr.map_span_plots cond, Stmt.map_span_plots body]
  | .ifThenElse _ cond body otherwise => by
      simp only [Stmt.plots, Stmt.tree, nodes, allNodes, List.map_cons, List.map_append,
        List.append_nil, Expr.map_span_plots cond, Stmt.map_span_plots body,
        Stmt.map_span_plots otherwise]
  | .ret _ _ value => by
      simp only [Stmt.plots, Stmt.tree, nodes, List.map_cons, Expr.map_span_clausePlots]
  | .classDef _ _ methods => by
      simp only [Stmt.plots, Stmt.tree, nodes, List.map_cons, Callable.map_span_allPlots methods]

theorem Stmt.map_span_allPlots : ∀ ss : List Stmt,
    (Stmt.allPlots ss).map Plot.span = (allNodes (Stmt.allTrees ss)).map Node.span
  | [] => rfl
  | s :: ss => by
      simp only [Stmt.allPlots, Stmt.allTrees, allNodes, List.map_append, Stmt.map_span_plots s,
        Stmt.map_span_allPlots ss]

theorem Callable.map_span_plots : ∀ c : Callable,
    c.plots.map Plot.span = (allNodes c.trees).map Node.span
  | ⟨_, _, body⟩ => by rw [Callable.plots, Callable.trees, Stmt.map_span_allPlots body]

theorem Callable.map_span_allPlots : ∀ cs : List Callable,
    (Callable.allPlots cs).map Plot.span = (allNodes (Callable.allTrees cs)).map Node.span
  | [] => rfl
  | c :: cs => by
      simp only [Callable.allPlots, Callable.allTrees, allNodes_append, List.map_append,
        Callable.map_span_plots c, Callable.map_span_allPlots cs]

end

end

end LamScope
