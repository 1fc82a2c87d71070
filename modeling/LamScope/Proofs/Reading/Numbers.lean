import LamScope.Proofs.Reading.RoughProgram

/-!
# Node numbers

The nodes of a syntax tree, each above those of its parts. Numbers are drawn upwards, a construct's
own after those of its parts, and what was drawn for a tree that was given up is not drawn again.
Main statement: in the statements of every program, read with faults or without, no two nodes have
the same number, and each number is larger than all those below it. This still holds together with
an expression that was read before the program from the same tokens.
-/
namespace LamScope

inductive NodeTree where
  | above (node : Node) (parts : List NodeTree)

namespace NodeTree

mutual

def nodes : NodeTree → List Node
  | above node parts => node :: allNodes parts

def allNodes : List NodeTree → List Node
  | [] => []
  | t :: ts => t.nodes ++ allNodes ts

end

mutual

/-- Every number is larger than the numbers of all nodes below it. -/
def Descending : NodeTree → Prop
  | above node parts => (∀ n ∈ allNodes parts, n.id < node.id) ∧ AllDescending parts

def AllDescending : List NodeTree → Prop
  | [] => True
  | t :: ts => t.Descending ∧ AllDescending ts

end

def allIds (ts : List NodeTree) : List Nat := (allNodes ts).map Node.id

theorem allNodes_append (ts us : List NodeTree) :
    allNodes (ts ++ us) = allNodes ts ++ allNodes us := by
  induction ts with
  | nil => rfl
  | cons t ts ih => rw [List.cons_append, allNodes, allNodes, ih, List.append_assoc]

/-- All nodes have spans of a kind. -/
def AllSpans (Q : Span → Prop) (ts : List NodeTree) : Prop := ∀ node ∈ allNodes ts, Q node.span

section
variable {Q : Span → Prop} {node : Node} {t : NodeTree} {ts us : List NodeTree}

theorem allSpans_append : AllSpans Q (ts ++ us) ↔ AllSpans Q ts ∧ AllSpans Q us := by
  simp only [AllSpans, allNodes_append, List.forall_mem_append]

theorem allSpans_cons : AllSpans Q (t :: ts) ↔ AllSpans Q [t] ∧ AllSpans Q ts :=
  @allSpans_append Q [t] ts

theorem allSpans_above : AllSpans Q [above node ts] ↔ Q node.span ∧ AllSpans Q ts := by
  simp only [AllSpans, allNodes, nodes, List.append_nil, List.forall_mem_cons]

theorem AllSpans.parts (h : AllSpans Q [above node ts]) : AllSpans Q ts := (allSpans_above.mp h).2

end

theorem allDescending_append {ts us : List NodeTree} :
    AllDescending (ts ++ us) ↔ AllDescending ts ∧ AllDescending us := by
  induction ts with
  | nil => simp [AllDescending]
  | cons t ts ih => rw [List.cons_append, AllDescending, AllDescending, ih, and_assoc]

theorem allIds_append (ts us : List NodeTree) : allIds (ts ++ us) = allIds ts ++ allIds us := by
  rw [allIds, allNodes_append, List.map_append, allIds, allIds]

theorem allIds_cons (node : Node) (parts ts : List NodeTree) :
    allIds (above node parts :: ts) = node.id :: allIds parts ++ allIds ts := by
  simp [allIds, allNodes, nodes]

/-- No number occurs twice, and numbers fall from each node to those below it. -/
structure WellNumbered (ts : List NodeTree) : Prop where
  distinct : (allIds ts).Nodup
  descending : AllDescending ts

/-- Well numbered, with numbers from `m` up to `n`. -/
structure Numbered (m n : Nat) (ts : List NodeTree) : Prop extends WellNumbered ts where
  le : m ≤ n
  range : ∀ i ∈ allIds ts, m ≤ i ∧ i < n

variable {m k n : Nat} {ts us : List NodeTree}

theorem numbered_nil (h : m ≤ n) : Numbered m n [] where
  distinct := List.nodup_nil
  descending := trivial
  le := h
  range _ hi := nomatch hi

theorem Numbered.append (hts : Numbered m k ts) (hus : Numbered k n us) :
    Numbered m n (ts ++ us) where
  distinct := by
    rw [allIds_append, List.nodup_append]
    refine ⟨hts.distinct, hus.distinct, fun i hi j hj => ?_⟩
    have hlow := (hts.range i hi).2
    have hhigh := (hus.range j hj).1
    omega
  descending := allDescending_append.mpr ⟨hts.descending, hus.descending⟩
  le := Nat.le_trans hts.le hus.le
  range i hi := by
    have hle := hts.le
    have hle' := hus.le
    rw [allIds_append, List.mem_append] at hi
    rcases hi with hi | hi
    · have hrange := hts.range i hi
      omega
    · have hrange := hus.range i hi
      omega

theorem Numbered.cons {t : NodeTree} (ht : Numbered m k [t]) (hts : Numbered k n ts) :
    Numbered m n (t :: ts) := ht.append hts

/-- A node over some of the trees takes the number that is free after all of them. -/
theorem Numbered.above_left (h : Numbered m n (ts ++ us)) (span : Span) :
    Numbered m (n + 1) (above ⟨n, span⟩ ts :: us) where
  distinct := by
    have hdistinct := h.distinct
    rw [allIds_append] at hdistinct
    rw [allIds_cons, List.cons_append, List.nodup_cons, ← allIds_append]
    refine ⟨fun hn => ?_, allIds_append ts us ▸ hdistinct⟩
    exact Nat.lt_irrefl n (h.range n hn).2
  descending := by
    obtain ⟨hts, hus⟩ := allDescending_append.mp h.descending
    refine ⟨⟨fun node hnode => ?_, hts⟩, hus⟩
    have hid : node.id ∈ allIds (ts ++ us) := by
      rw [allIds_append]
      exact List.mem_append_left _ (List.mem_map_of_mem hnode)
    exact (h.range node.id hid).2
  le := Nat.le_succ_of_le h.le
  range i hi := by
    have hle := h.le
    rw [allIds_cons, List.cons_append, List.mem_cons, ← allIds_append] at hi
    rcases hi with rfl | hi
    · exact ⟨hle, Nat.lt_succ_self _⟩
    · have hrange := h.range i hi
      omega

theorem Numbered.above (h : Numbered m n ts) (span : Span) :
    Numbered m (n + 1) [above ⟨n, span⟩ ts] :=
  @Numbered.above_left m n ts [] ((List.append_nil ts).symm ▸ h) span

theorem Numbered.swap (h : Numbered m n (ts ++ us)) : Numbered m n (us ++ ts) where
  distinct := by
    have hdistinct := h.distinct
    rw [allIds_append] at hdistinct ⊢
    exact (List.perm_append_comm.nodup_iff).mp hdistinct
  descending := by
    have hdescending := allDescending_append.mp h.descending
    exact allDescending_append.mpr hdescending.symm
  le := h.le
  range i hi := by
    refine h.range i ?_
    rw [allIds_append] at hi ⊢
    exact List.perm_append_comm.mem_iff.mp hi

/-- What is left of a construct whose own node is given up. -/
theorem Numbered.parts {node : Node} (h : Numbered m n [.above node ts]) : Numbered m n ts where
  distinct := by
    have hdistinct := h.distinct
    rw [allIds_cons, List.cons_append] at hdistinct
    exact (List.nodup_append.mp hdistinct.of_cons).1
  descending := h.descending.1.2
  le := h.le
  range i hi := by
    refine h.range i ?_
    rw [allIds_cons, List.cons_append]
    exact List.mem_cons_of_mem _ (List.mem_append_left _ hi)

theorem Numbered.widen (h : Numbered m k ts) (hle : k ≤ n) : Numbered m n ts := by
  have hts := h.append (numbered_nil hle)
  rwa [List.append_nil] at hts

theorem Numbered.skip (h : Numbered k n ts) (hle : m ≤ k) : Numbered m n ts :=
  (numbered_nil hle).append h

end NodeTree

open NodeTree

mutual

def Expr.tree : Expr → NodeTree
  | .literal node _ | .read node _ => .above node []
  | .assign node _ value => .above node [value.tree]
  | .binary node _ left right | .logical node _ left right => .above node [left.tree, right.tree]
  | .unary node _ operand => .above node [operand.tree]
  | .group node inner => .above node [inner.tree]
  | .call node callee args => .above node (callee.tree :: Expr.allTrees args)
  | .property node object _ => .above node [object.tree]
  | .setProperty node object _ value => .above node [object.tree, value.tree]

def Expr.allTrees : List Expr → List NodeTree
  | [] => []
  | e :: es => e.tree :: Expr.allTrees es

end

def Expr.clauseTrees : Option Expr → List NodeTree
  | none => []
  | some e => [e.tree]

mutual

/-- The nodes in the body of a function or method stand directly below the declaration. -/
def Stmt.tree : Stmt → NodeTree
  | .block node body => .above node (Stmt.allTrees body)
  | .var node _ init => .above node (Expr.clauseTrees init)
  | .function node decl => .above node decl.trees
  | .expr node value | .print node value => .above node [value.tree]
  | .ifThen node cond body | .loop node cond body => .above node [cond.tree, body.tree]
  | .ifThenElse node cond body otherwise => .above node [cond.tree, body.tree, otherwise.tree]
  | .ret node _ value => .above node (Expr.clauseTrees value)
  | .classDef node _ methods => .above node (Callable.allTrees methods)

def Stmt.allTrees : List Stmt → List NodeTree
  | [] => []
  | s :: ss => s.tree :: Stmt.allTrees ss

def Callable.trees : Callable → List NodeTree
  | ⟨_, _, body⟩ => Stmt.allTrees body

def Callable.allTrees : List Callable → List NodeTree
  | [] => []
  | c :: cs => c.trees ++ Callable.allTrees cs

end

def Stmt.clauseTrees : Option Stmt → List NodeTree
  | none => []
  | some s => [s.tree]

theorem Expr.node_mem_tree (e : Expr) : e.node ∈ allNodes [e.tree] := by
  cases e <;> simp [tree, allNodes, nodes, node]

theorem Stmt.node_mem_tree (s : Stmt) : s.node ∈ allNodes [s.tree] := by
  cases s <;> simp [tree, allNodes, nodes, node]

namespace Rough
variable {ts : List Token} {m n : Nat}

theorem tree_apply (o : Operator) (node : Node) (left right : Expr) :
    (o.apply node left right).tree = .above node [left.tree, right.tree] := by
  cases o <;> simp [Operator.apply, Expr.tree]

mutual

theorem Expression.numbered {ts : List Token} {m n : Nat} {e : Expr} :
    Expression ts m n e → Numbered m n [e.tree]
  | .operand h => h.numbered
  | .assign htarget hvalue => by
      rw [Expr.tree]
      exact (hvalue.numbered.skip htarget.numbered.le).above _
  | .setProperty htarget hvalue => by
      have hobject := htarget.numbered
      rw [Expr.tree] at hobject
      rw [Expr.tree]
      exact (hobject.parts.cons hvalue.numbered).above _
  | .rejected htarget hvalue => htarget.numbered.widen hvalue.numbered.le

theorem Operand.numbered {ts : List Token} {m n : Nat} {e : Expr} :
    Operand ts m n e → Numbered m n [e.tree]
  | .literal _ | .name => by
      rw [Expr.tree]
      exact (numbered_nil (Nat.le_refl _)).above _
  | .group h | .unary _ h | .property h => by
      rw [Expr.tree]
      exact h.numbered.above _
  | .operation o hleft hright => by
      rw [tree_apply]
      exact (hleft.numbered.cons hright.numbered).above _
  | .call hcallee hargs => by
      rw [Expr.tree]
      exact (hcallee.numbered.cons hargs.numbered).above _

theorem Arguments.numbered {ts : List Token} {m n : Nat} {es : List Expr} :
    Arguments ts m n es → Numbered m n (Expr.allTrees es)
  | .none => numbered_nil (Nat.le_refl _)
  | .some _ hfirst hothers => hfirst.numbered.cons hothers.numbered

end

theorem Clause.numbered {clause : Option Expr} (h : Clause ts m n clause) :
    Numbered m n (Expr.clauseTrees clause) := by
  cases h with
  | none => exact numbered_nil (Nat.le_refl _)
  | some he => exact he.numbered

theorem Variable.numbered {s : Stmt} (h : Variable ts m n s) : Numbered m n [s.tree] := by
  cases h with
  | declared _ hinit =>
      rw [Stmt.tree]
      exact hinit.numbered.above _

theorem Simple.numbered {s : Stmt} (h : Simple ts m n s) : Numbered m n [s.tree] := by
  cases h with
  | expr hvalue =>
      rw [Stmt.tree]
      exact hvalue.numbered.above _

theorem ForInit.numbered {init : Option Stmt} :
    ForInit ts m n init → Numbered m n (Stmt.clauseTrees init)
  | .none => numbered_nil (Nat.le_refl _)
  | .variable hs => hs.numbered
  | .simple hs => hs.numbered

/-- The numbers of the increment lie below those of the body, which stands before it. -/
theorem Increment.numbered {span : Span} {body repeated : Stmt} {increment : Option Expr}
    {k l : Nat} (h : Increment span body k n increment repeated)
    (hincrement : Numbered m l (Expr.clauseTrees increment)) (hbody : Numbered l k [body.tree]) :
    Numbered m n [repeated.tree] := by
  cases h with
  | none => exact hbody.skip hincrement.le
  | @some e =>
      have hexpr := (hincrement.append hbody).above_left e.span
      have hboth : Numbered m (k + 1) [body.tree, (Stmt.expr ⟨k, e.span⟩ e).tree] := by
        rw [Stmt.tree]
        exact @Numbered.swap _ _ [_] _ hexpr
      rw [Stmt.tree]
      exact hboth.above _

/-- The number of a condition that was left out lies above those of the body. -/
theorem Endless.numbered {span : Span} {cond : Option Expr} {endless : Expr} {t : NodeTree}
    {k l : Nat} (h : Endless span k n cond endless) (hcond : Numbered m l (Expr.clauseTrees cond))
    (hbody : Numbered l k [t]) : Numbered m n [endless.tree, t] := by
  cases h with
  | none =>
      rw [Expr.tree]
      exact @Numbered.above_left _ _ [] _ (hbody.skip hcond.le) span
  | some => exact hcond.append hbody

theorem Initial.numbered {span : Span} {loop s : Stmt} {init : Option Stmt} {k l : Nat}
    (h : Initial span loop k n init s) (hinit : Numbered m l (Stmt.clauseTrees init))
    (hloop : Numbered l k [loop.tree]) : Numbered m n [s.tree] := by
  cases h with
  | none => exact hloop.skip hinit.le
  | some =>
      rw [Stmt.tree]
      exact (hinit.append hloop).above _

mutual

theorem Statement.numbered {ts : List Token} {m n : Nat} {s : Stmt} :
    Statement ts m n s → Numbered m n [s.tree]
  | .simple h => h.numbered
  | .print h => by
      rw [Stmt.tree]
      exact h.numbered.above _
  | .ret h => by
      rw [Stmt.tree]
      exact h.numbered.above _
  | .block h => by
      rw [Stmt.tree]
      exact h.numbered.above _
  | .ifThen hcond hbody => by
      rw [Stmt.tree]
      exact (hcond.numbered.cons hbody.numbered).above _
  | .ifThenElse hcond hbody hotherwise => by
      rw [Stmt.tree]
      exact (hcond.numbered.cons (hbody.numbered.cons hotherwise.numbered)).above _
  | .loop hcond hbody => by
      rw [Stmt.tree]
      exact (hcond.numbered.cons hbody.numbered).above _
  | .forLoop hinit hcond hincrement hbody hrepeated hendless hs => by
      have hloop := hendless.numbered hcond.numbered
        (hrepeated.numbered hincrement.numbered hbody.numbered)
      refine hs.numbered hinit.numbered ?_
      rw [Stmt.tree]
      exact hloop.above _

theorem Declaration.numbered {ts : List Token} {m n : Nat} {s : Stmt} :
    Declaration ts m n s → Numbered m n [s.tree]
  | .variable h => h.numbered
  | .function h => by
      rw [Stmt.tree]
      exact h.numbered.above _
  | .classDef h => by
      rw [Stmt.tree]
      exact h.numbered.above _
  | .statement h => h.numbered

theorem Sequence.numbered {ts : List Token} {m n : Nat} {ss : List Stmt} :
    Sequence ts m n ss → Numbered m n (Stmt.allTrees ss)
  | .none => numbered_nil (Nat.le_refl _)
  | .skip _ hle hothers => hothers.numbered.skip hle
  | .some hfirst hothers => hfirst.numbered.cons hothers.numbered

theorem Function.numbered {ts : List Token} {m n : Nat} {decl : Callable} :
    Function ts m n decl → Numbered m n decl.trees
  | .callable _ hbody => hbody.numbered

theorem Methods.numbered {ts : List Token} {m n : Nat} {decls : List Callable} :
    Methods ts m n decls → Numbered m n (Callable.allTrees decls)
  | .none => numbered_nil (Nat.le_refl _)
  | .some hfirst hothers => hfirst.numbered.append hothers.numbered

end

end Rough

/-- What a parser gives, if it gives anything. -/
def Reply.value? {α : Type} : Reply α → Option α
  | .ok a _ => some a
  | .failed _ _ => none

namespace Program

theorem ofCursor_numbered {c : Cursor} (hc : c.Closed) :
    Numbered c.nextId (lastCursor c).nextId (Stmt.allTrees (ofCursor c).statements) := by
  obtain ⟨_, -, hstatements⟩ := ofCursor_goes hc.over
  exact hstatements.numbered

/-- An expression and the statements read after it are well numbered together. -/
theorem afterExpression_wellNumbered {c : Cursor} (hc : c.Closed) :
    WellNumbered (Expr.clauseTrees (Parser.outermostExpression c).value? ++
      Stmt.allTrees (ofCursor (Parser.outermostExpression c).next).statements) := by
  have hlevels : c.levels.Goes fun _ => True := Levels.ofDepth_goes _
  have hexpression := Parser.expression_goes hlevels hc.over
  unfold Parser.Goes at hexpression
  have hreply : Parser.outermostExpression c = Parser.expression c.levels c :=
    Parser.expression_outermost c
  rw [← hreply] at hexpression
  cases h : Parser.outermostExpression c with
  | ok e d =>
      rw [h] at hexpression
      obtain ⟨ts, hd, he⟩ := hexpression
      have hall := he.numbered.append (ofCursor_numbered (hd.over hc.over).closed)
      exact hall.toWellNumbered
  | failed fault d =>
      rw [h] at hexpression
      obtain ⟨-, ts, hd⟩ := hexpression
      exact (ofCursor_numbered (hd.over hc.over).closed).toWellNumbered

end Program

end LamScope
