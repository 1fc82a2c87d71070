import LamScope.Proofs.Reading.Plots
import LamScope.Proofs.Token.Places

/-!
# Spans of nodes

Tokens that stand one after the other give nodes whose spans reach from the start of a token to the
end of one that is not before it, and cover the spans of all that the nodes hold. Main statement:
so do all nodes of a program, read with faults or without, and its statements stand one after the
other.
-/
namespace LamScope

open NodeTree

/-- Tokens that stand one after the other, some of them perhaps empty. -/
structure Token.InOrder (ts : List Token) : Prop where
  forward : ∀ t ∈ ts, t.span.start ≤ t.span.stop
  apart : ts.Pairwise fun a b => a.span.stop ≤ b.span.start

theorem Token.Ordered.inOrder {ts : List Token} (h : Token.Ordered ts) : Token.InOrder ts where
  forward t ht := Nat.le_of_lt (h.nonempty t ht)
  apart := h.apart

namespace Token.InOrder
variable {t u : Token} {ts us : List Token}

theorem tail (h : Token.InOrder (t :: ts)) : Token.InOrder ts where
  forward u hu := h.forward u (List.mem_cons_of_mem t hu)
  apart := h.apart.of_cons

theorem left (h : Token.InOrder (ts ++ us)) : Token.InOrder ts where
  forward u hu := h.forward u (List.mem_append_left us hu)
  apart := (List.pairwise_append.mp h.apart).1

theorem right (h : Token.InOrder (ts ++ us)) : Token.InOrder us where
  forward u hu := h.forward u (List.mem_append_right ts hu)
  apart := (List.pairwise_append.mp h.apart).2.1

theorem stop_le_start (h : Token.InOrder (ts ++ us)) (ht : t ∈ ts) (hu : u ∈ us) :
    t.span.stop ≤ u.span.start :=
  (List.pairwise_append.mp h.apart).2.2 t ht u hu

/-- It is enough that no token starts before the end of the one right before it. -/
theorem of_isChain (hforward : ∀ t ∈ ts, t.span.start ≤ t.span.stop)
    (hnext : ts.IsChain fun t u => t.span.stop ≤ u.span.start) : Token.InOrder ts := by
  refine ⟨hforward, ?_⟩
  induction ts with
  | nil => exact List.Pairwise.nil
  | cons t ts ih =>
      cases ts with
      | nil => exact List.pairwise_singleton _ t
      | cons v vs =>
          obtain ⟨hv, hrest⟩ := List.isChain_cons_cons.mp hnext
          have hapart := ih (fun u hu => hforward u (List.mem_cons_of_mem t hu)) hrest
          refine hapart.cons fun u hu => ?_
          rcases List.mem_cons.mp hu with rfl | hu
          · exact hv
          · have hlong := hforward v (by simp)
            have hbefore := (List.pairwise_cons.mp hapart).1 u hu
            omega

end Token.InOrder

namespace Rough

/-- From the start of a token to the end of one, and not backwards. -/
structure Within (ts : List Token) (span : Span) : Prop where
  start : ∃ t ∈ ts, span.start = t.span.start
  stop : ∃ t ∈ ts, span.stop = t.span.stop
  le : span.start ≤ span.stop

def AllWithin (ts : List Token) (trees : List NodeTree) : Prop := AllSpans (Within ts) trees

/-- The span of what is read from all the tokens. -/
structure Whole (ts : List Token) (span : Span) : Prop where
  within : Within ts span
  covers : ∀ {a : Span}, Within ts a → span.Covers a

/-- The plots lie among the tokens, and what they hold lies within them. -/
def Laid (ts : List Token) (plots : List Plot) : Prop :=
  ∀ p ∈ plots, Within ts p.span ∧ ∀ a ∈ p.held, p.span.Covers a

/-- What a node read from the tokens may hold, with the plots of all that it holds. -/
structure Parts (ts : List Token) (held : List Span) (plots : List Plot) : Prop where
  within : ∀ a ∈ held, Within ts a
  laid : Laid ts plots

section
variable {t u : Token} {ts us : List Token} {a b : Span} {held held' : List Span}
  {ps qs : List Plot}

theorem Within.mono (h : Within us a) (hs : us ⊆ ts) : Within ts a where
  start := h.start.imp fun _ ht => ⟨hs ht.1, ht.2⟩
  stop := h.stop.imp fun _ ht => ⟨hs ht.1, ht.2⟩
  le := h.le

theorem Within.join (ha : Within ts a) (hb : Within ts b) : Within ts (a.join b) where
  start := by
    rcases Nat.le_total a.start b.start with h | h
    · exact ha.start.imp fun _ ht => ⟨ht.1, (Nat.min_eq_left h).trans ht.2⟩
    · exact hb.start.imp fun _ ht => ⟨ht.1, (Nat.min_eq_right h).trans ht.2⟩
  stop := by
    rcases Nat.le_total a.stop b.stop with h | h
    · exact hb.stop.imp fun _ ht => ⟨ht.1, (Nat.max_eq_right h).trans ht.2⟩
    · exact ha.stop.imp fun _ ht => ⟨ht.1, (Nat.max_eq_left h).trans ht.2⟩
  le := Nat.le_trans (Nat.min_le_left _ _) (Nat.le_trans ha.le (Nat.le_max_left _ _))

theorem within_token (ho : Token.InOrder ts) (ht : t ∈ ts) : Within ts t.span :=
  ⟨⟨t, ht, rfl⟩, ⟨t, ht, rfl⟩, ho.forward t ht⟩

/-- What is read first ends before the rest starts. -/
theorem Within.stop_le_start (ha : Within ts a) (hb : Within us b)
    (ho : Token.InOrder (ts ++ us)) : a.stop ≤ b.start := by
  obtain ⟨t, ht, hstop⟩ := ha.stop
  obtain ⟨u, hu, hstart⟩ := hb.start
  rw [hstop, hstart]
  exact ho.stop_le_start ht hu

theorem Within.first_le (ha : Within (t :: ts) a) (ho : Token.InOrder (t :: ts)) :
    t.span.start ≤ a.start := by
  obtain ⟨u, hu, hstart⟩ := ha.start
  rw [hstart]
  rcases List.mem_cons.mp hu with rfl | hu
  · exact Nat.le_refl _
  · have hbefore := (List.pairwise_cons.mp ho.apart).1 u hu
    have hforward := ho.forward t List.mem_cons_self
    omega

theorem Within.le_last (ha : Within (ts ++ [u]) a) (ho : Token.InOrder (ts ++ [u])) :
    a.stop ≤ u.span.stop := by
  obtain ⟨t, ht, hstop⟩ := ha.stop
  rw [hstop]
  rcases List.mem_append.mp ht with ht | ht
  · have hbefore := ho.stop_le_start ht (List.mem_singleton_self u)
    have hforward := ho.forward u (by simp)
    omega
  · exact Nat.le_of_eq (congrArg (·.span.stop) (List.mem_singleton.mp ht))

theorem through_concat : through t (ts ++ [u]) = ⟨t.span.start, u.span.stop⟩ := by
  rw [through, getLastD_append]
  rfl

/-- Only the last token counts. -/
theorem through_append (h : us ≠ []) : through t (ts ++ us) = through t us := by
  rw [through, through, getLastD_append, getLastD_congr h]

theorem whole_through (ho : Token.InOrder (t :: ts)) : Whole (t :: ts) (through t ts) := by
  rcases List.eq_nil_or_concat ts with rfl | ⟨us, u, rfl⟩
  · constructor
    · exact within_token ho List.mem_cons_self
    · intro a ha
      have hlast := @Within.le_last t [] a ha ho
      exact ⟨ha.first_le ho, hlast⟩
  · rw [List.concat_eq_append] at ho ⊢
    rw [through_concat]
    have hbefore := (@Token.InOrder.stop_le_start t u [t] (us ++ [u]) ho) (by simp) (by simp)
    have ht := ho.forward t (by simp)
    have hu := ho.forward u (by simp)
    constructor
    · refine ⟨⟨t, by simp, rfl⟩, ⟨u, by simp, rfl⟩, ?_⟩
      show t.span.start ≤ u.span.stop
      omega
    · intro a ha
      exact ⟨ha.first_le ho, @Within.le_last u (t :: us) a ha ho⟩

/-- Between the first token and the last. -/
theorem whole_between (ho : Token.InOrder (t :: ts ++ [u])) :
    Whole (t :: ts ++ [u]) ⟨t.span.start, u.span.stop⟩ := by
  have hspan : through t (ts ++ [u]) = ⟨t.span.start, u.span.stop⟩ := through_concat
  rw [← hspan]
  exact whole_through ho

/-- The end of all tokens is the end of the last part. -/
theorem whole_upTo (ho : Token.InOrder (t :: ts ++ u :: us)) (h : us ≠ []) :
    Whole (t :: ts ++ u :: us) (through t us) := by
  have hsplit : ts ++ u :: us = (ts ++ [u]) ++ us := by simp
  rw [← through_append h, ← hsplit]
  exact whole_through ho

theorem laid_nil : Laid ts [] := nofun

theorem Laid.mono (h : Laid us ps) (hs : us ⊆ ts) : Laid ts ps :=
  fun p hp => ⟨(h p hp).1.mono hs, (h p hp).2⟩

theorem Laid.left (h : Laid ts ps) : Laid (ts ++ us) ps := h.mono (List.subset_append_left ts us)

theorem Laid.right (h : Laid us ps) : Laid (ts ++ us) ps := h.mono (List.subset_append_right ts us)

theorem Laid.behind (h : Laid ts ps) : Laid (t :: ts) ps := h.mono (List.subset_cons_self t ts)

theorem Laid.append (hp : Laid ts ps) (hq : Laid ts qs) : Laid ts (ps ++ qs) :=
  List.forall_mem_append.mpr ⟨hp, hq⟩

theorem Laid.cons (h : Laid ts ps) (ha : Within ts a) (hheld : ∀ b ∈ held, a.Covers b) :
    Laid ts (⟨a, held⟩ :: ps) := List.forall_mem_cons.mpr ⟨⟨ha, hheld⟩, h⟩

theorem Laid.expr {e : Expr} (h : Laid ts e.plots) : Within ts e.span :=
  e.exists_plot.elim fun _ hp => (h _ hp).1

theorem Laid.stmt {s : Stmt} (h : Laid ts s.plots) : Within ts s.span :=
  s.exists_plot.elim fun _ hp => (h _ hp).1

theorem parts_nil : Parts ts [] [] := ⟨nofun, laid_nil⟩

theorem Parts.mono (h : Parts us held ps) (hs : us ⊆ ts) : Parts ts held ps where
  within a ha := (h.within a ha).mono hs
  laid := h.laid.mono hs

theorem Parts.left (h : Parts ts held ps) : Parts (ts ++ us) held ps :=
  h.mono (List.subset_append_left ts us)

theorem Parts.right (h : Parts us held ps) : Parts (ts ++ us) held ps :=
  h.mono (List.subset_append_right ts us)

theorem Parts.behind (h : Parts ts held ps) : Parts (t :: ts) held ps :=
  h.mono (List.subset_cons_self t ts)

theorem Parts.append (h : Parts ts held ps) (h' : Parts ts held' qs) :
    Parts ts (held ++ held') (ps ++ qs) where
  within := List.forall_mem_append.mpr ⟨h.within, h'.within⟩
  laid := h.laid.append h'.laid

/-- A word is held as well. -/
theorem Parts.cons (h : Parts ts held ps) (ha : Within ts a) : Parts ts (a :: held) ps where
  within := List.forall_mem_cons.mpr ⟨ha, h.within⟩
  laid := h.laid

/-- Some of the tokens as words. -/
theorem parts_words {ws : List Word} (h : ws.Sublist (ts.map Token.toWord))
    (ho : Token.InOrder ts) : Parts ts (ws.map Word.span) [] := by
  refine ⟨List.forall_mem_map.mpr fun w hw => ?_, laid_nil⟩
  obtain ⟨t, ht, rfl⟩ := List.mem_map.mp (h.subset hw)
  exact within_token ho ht

theorem Laid.exprPart {e : Expr} (h : Laid ts e.plots) : Parts ts [e.span] e.plots :=
  ⟨List.forall_mem_singleton.mpr h.expr, h⟩

theorem Laid.stmtPart {s : Stmt} (h : Laid ts s.plots) : Parts ts [s.span] s.plots :=
  ⟨List.forall_mem_singleton.mpr h.stmt, h⟩

theorem Laid.exprParts {es : List Expr} (h : Laid ts (Expr.allPlots es)) :
    Parts ts (es.map Expr.span) (Expr.allPlots es) := by
  refine ⟨List.forall_mem_map.mpr fun e he => ?_, h⟩
  exact Laid.expr fun p hp => h p (Expr.plots_subset he hp)

theorem Laid.stmtParts {ss : List Stmt} (h : Laid ts (Stmt.allPlots ss)) :
    Parts ts (ss.map Stmt.span) (Stmt.allPlots ss) := by
  refine ⟨List.forall_mem_map.mpr fun s hs => ?_, h⟩
  exact Laid.stmt fun p hp => h p (Stmt.plots_subset hs hp)

/-- A node that is read from all the tokens may hold anything read from them. -/
theorem Parts.whole (h : Parts ts held ps) (ha : Whole ts a) : Laid ts (⟨a, held⟩ :: ps) :=
  h.laid.cons ha.within fun b hb => ha.covers (h.within b hb)

/-- A part on the left, a token and an expression on the right. -/
theorem Laid.joined {right : Expr} (h : Laid ts ps) (ha : Within ts a)
    (hheld : ∀ b ∈ held, a.Covers b) (hr : Laid us right.plots) :
    Laid (ts ++ t :: us)
      (⟨a.join right.span, held ++ [right.span]⟩ :: (ps ++ right.plots)) := by
  refine (h.left.append hr.behind.right).cons ?_ (List.forall_mem_append.mpr ⟨?_, ?_⟩)
  · exact (ha.mono (List.subset_append_left _ _)).join hr.behind.right.expr
  · exact fun b hb => (Span.covers_join_left _ _).trans (hheld b hb)
  · exact List.forall_mem_singleton.mpr (Span.covers_join_right _ _)

/-- A call or a property starts where its first part does. -/
theorem Laid.continued {e : Expr} (h : Laid ts e.plots) (hparts : Parts (us ++ [u]) held ps)
    (ho : Token.InOrder (ts ++ (us ++ [u]))) :
    Laid (ts ++ (us ++ [u]))
      (⟨⟨e.span.start, u.span.stop⟩, e.span :: held⟩ :: (e.plots ++ ps)) := by
  have hforward := h.expr.le
  have hlast : e.span.stop ≤ u.span.stop :=
    Nat.le_trans (h.expr.stop_le_start (within_token ho.right (by simp)) ho)
      (ho.right.forward u (by simp))
  refine (h.left.append hparts.laid.right).cons ⟨h.left.expr.start, ⟨u, by simp, rfl⟩, ?_⟩ ?_
  · exact Nat.le_trans hforward hlast
  · refine List.forall_mem_cons.mpr ⟨⟨Nat.le_refl _, hlast⟩, fun b hb => ?_⟩
    have hb := hparts.within b hb
    have hbehind := h.expr.stop_le_start hb ho
    exact ⟨Nat.le_trans hforward hbehind, hb.le_last ho.right⟩

end

mutual

theorem Expression.laid {ts : List Token} {m n : Nat} {e : Expr} :
    Expression ts m n e → Token.InOrder ts → Laid ts e.plots
  | .operand h, ho => h.laid ho
  | .assign htarget hvalue, ho => by
      have ht := htarget.laid ho.left
      simp only [Expr.plots] at ht ⊢
      obtain ⟨⟨hspan, hname⟩, -⟩ := List.forall_mem_cons.mp ht
      exact laid_nil.joined hspan hname (hvalue.laid ho.right.tail)
  | .setProperty htarget hvalue, ho => by
      have ht := htarget.laid ho.left
      simp only [Expr.plots] at ht ⊢
      obtain ⟨⟨hspan, hheld⟩, hobject⟩ := List.forall_mem_cons.mp ht
      exact Laid.joined hobject hspan hheld (hvalue.laid ho.right.tail)
  | .rejected htarget _, ho => (htarget.laid ho.left).left

theorem Operand.laid {ts : List Token} {m n : Nat} {e : Expr} :
    Operand ts m n e → Token.InOrder ts → Laid ts e.plots
  | .literal _, ho => by
      rw [Expr.plots]
      exact parts_nil.whole (whole_through ho)
  | .name, ho => by
      rw [Expr.plots]
      exact (parts_nil.cons (whole_through ho).within).whole (whole_through ho)
  | .group h, ho => by
      rw [Expr.plots]
      exact (h.laid ho.left.tail).exprPart.behind.left.whole (whole_between ho)
  | .unary _ h, ho => by
      rw [Expr.plots]
      exact (h.laid ho.tail).exprPart.behind.whole (whole_through ho)
  | .operation o hleft hright, ho => by
      have hl := hleft.laid ho.left
      rw [o.plots_apply]
      exact hl.joined hl.expr (List.forall_mem_singleton.mpr (Span.Covers.refl _))
        (hright.laid ho.right.tail)
  | .call hcallee hargs, ho => by
      have ha := hargs.laid ho.left.right.tail
      rw [List.append_assoc] at ho ⊢
      rw [Expr.plots]
      exact (hcallee.laid ho.left).continued ha.exprParts.behind.left ho
  | @Operand.property dot name _ _ _ _ h, ho => by
      have hname : Parts ([dot] ++ [name]) [name.span] [] :=
        parts_nil.cons (within_token ho.right (by simp))
      have hobject := (h.laid ho.left).continued hname ho
      rw [List.append_nil] at hobject
      rw [Expr.plots]
      exact hobject

theorem Arguments.laid {ts : List Token} {m n : Nat} {es : List Expr} :
    Arguments ts m n es → Token.InOrder ts → Laid ts (Expr.allPlots es)
  | .none, _ => laid_nil
  | .some _ hfirst hothers, ho =>
      (hfirst.laid ho.left.right).right.left.append (hothers.laid ho.right).right

end

section
variable {ts : List Token} {m n : Nat} {span : Span}

theorem Clause.parts {clause : Option Expr} (h : Clause ts m n clause) (ho : Token.InOrder ts) :
    Parts ts (Expr.clauseSpans clause) (Expr.clausePlots clause) := by
  cases h with
  | none => exact parts_nil
  | some he => exact (he.laid ho).exprPart

theorem Variable.laid {s : Stmt} (h : Variable ts m n s) (ho : Token.InOrder ts) :
    Laid ts s.plots := by
  cases h with
  | declared _ hinit =>
      rw [Stmt.plots]
      exact ((hinit.parts ho.left.right).right.left.cons (within_token ho (by simp))).whole
        (whole_between ho)

theorem Simple.laid {s : Stmt} (h : Simple ts m n s) (ho : Token.InOrder ts) :
    Laid ts s.plots := by
  cases h with
  | expr hvalue =>
      rw [Stmt.plots]
      exact (hvalue.laid ho.left).exprPart.left.whole (whole_between ho)

def initPlots : Option Stmt → List Plot
  | none => []
  | some s => s.plots

theorem ForInit.laid {init : Option Stmt} (h : ForInit ts m n init) (ho : Token.InOrder ts) :
    Laid ts (initPlots init) := by
  cases h with
  | none => exact laid_nil
  | «variable» hs => exact hs.laid ho
  | simple hs => exact hs.laid ho

theorem Increment.laid {body repeated : Stmt} {increment : Option Expr}
    (h : Increment span body m n increment repeated) (hspan : Whole ts span)
    (hincrement : Laid ts (Expr.clausePlots increment)) (hbody : Laid ts body.plots) :
    Laid ts repeated.plots := by
  cases h with
  | none => exact hbody
  | @some e =>
      have hexpr : Laid ts (Stmt.expr ⟨m, e.span⟩ e).plots := by
        rw [Stmt.plots]
        exact hincrement.cons (Laid.expr hincrement)
          (List.forall_mem_singleton.mpr (Span.Covers.refl _))
      rw [Stmt.plots]
      simp only [Stmt.allPlots, List.append_nil]
      exact (hbody.stmtPart.append hexpr.stmtPart).whole hspan

theorem Endless.laid {cond : Option Expr} {endless : Expr} (h : Endless span m n cond endless)
    (hspan : Within ts span) (hcond : Laid ts (Expr.clausePlots cond)) :
    Laid ts endless.plots := by
  cases h with
  | none =>
      rw [Expr.plots]
      exact laid_nil.cons hspan nofun
  | some => exact hcond

theorem Initial.laid {loop s : Stmt} {init : Option Stmt} (h : Initial span loop m n init s)
    (hspan : Whole ts span) (hinit : Laid ts (initPlots init)) (hloop : Laid ts loop.plots) :
    Laid ts s.plots := by
  cases h with
  | none => exact hloop
  | @some init =>
      have hinit : Laid ts init.plots := hinit
      rw [Stmt.plots]
      simp only [Stmt.allPlots, List.append_nil]
      exact (hinit.stmtPart.append hloop.stmtPart).whole hspan

end

mutual

theorem Statement.laid {ts : List Token} {m n : Nat} {s : Stmt} :
    Statement ts m n s → Token.InOrder ts → Laid ts s.plots
  | .simple h, ho => h.laid ho
  | .print h, ho => by
      rw [Stmt.plots]
      exact (h.laid ho.left.tail).exprPart.behind.left.whole (whole_between ho)
  | .ret h, ho => by
      rw [Stmt.plots]
      exact ((h.parts ho.left.tail).behind.left.cons (within_token ho (by simp))).whole
        (whole_between ho)
  | .block h, ho => by
      rw [Stmt.plots]
      exact (h.laid ho.left.tail).stmtParts.behind.left.whole (whole_between ho)
  | .ifThen hcond hbody, ho => by
      rw [Stmt.plots]
      exact ((hcond.laid ho.left.tail.tail).exprPart.behind.behind.left.append
        (hbody.laid ho.right.tail).stmtPart.behind.right).whole (whole_upTo ho hbody.ne_nil)
  | .ifThenElse hcond hbody hotherwise, ho => by
      rw [Stmt.plots]
      exact ((hcond.laid ho.left.left.tail.tail).exprPart.behind.behind.left.left.append
        ((hbody.laid ho.left.right.tail).stmtPart.behind.right.left.append
          (hotherwise.laid ho.right.tail).stmtPart.behind.right)).whole
            (whole_upTo ho hotherwise.ne_nil)
  | .loop hcond hbody, ho => by
      rw [Stmt.plots]
      exact ((hcond.laid ho.left.tail.tail).exprPart.behind.behind.left.append
        (hbody.laid ho.right.tail).stmtPart.behind.right).whole (whole_upTo ho hbody.ne_nil)
  | .forLoop hinit hcond hincrement hbody hrepeated hendless hs, ho => by
      have hspan := whole_upTo ho hbody.ne_nil
      refine hs.laid hspan
        (hinit.laid ho.left.left.left.tail.tail).behind.behind.left.left.left ?_
      rw [Stmt.plots]
      refine Parts.whole (Parts.append (Laid.exprPart ?_) (Laid.stmtPart ?_)) hspan
      · exact hendless.laid hspan.within (hcond.parts ho.left.left.right).laid.right.left.left
      · exact hrepeated.laid hspan (hincrement.parts ho.left.right.tail).laid.behind.right.left
          (hbody.laid ho.right.tail).behind.right

theorem Declaration.laid {ts : List Token} {m n : Nat} {s : Stmt} :
    Declaration ts m n s → Token.InOrder ts → Laid ts s.plots
  | .variable h, ho => h.laid ho
  | .function h, ho => by
      rw [Stmt.plots]
      exact (h.parts ho.tail).behind.whole (whole_through ho)
  | .classDef h, ho => by
      rw [Stmt.plots]
      exact ((h.parts ho.left.tail.tail.tail).behind.behind.behind.left.cons
        (within_token ho (by simp))).whole (whole_between ho)
  | .statement h, ho => h.laid ho

theorem Sequence.laid {ts : List Token} {m n : Nat} {ss : List Stmt} :
    Sequence ts m n ss → Token.InOrder ts → Laid ts (Stmt.allPlots ss)
  | .none, _ => laid_nil
  | .skip _ _ hothers, ho => (hothers.laid ho.right).right
  | .some hfirst hothers, ho => (hfirst.laid ho.left).left.append (hothers.laid ho.right).right

theorem Function.parts {ts : List Token} {m n : Nat} {decl : Callable} :
    Function ts m n decl → Token.InOrder ts → Parts ts decl.spans decl.plots
  | @Function.callable _ opening _ start _ _ _ _ _ _ _ hparams hbody, ho => by
      have hwords := (parts_words hparams ho.left.left.tail.tail).behind (t := opening)
      have hstatements := (hbody.laid ho.left.right.tail.tail).stmtParts.behind (t := start)
      exact (hwords.behind.left.left.append hstatements.behind.right.left).cons
        (within_token ho (by simp))

theorem Methods.parts {ts : List Token} {m n : Nat} {decls : List Callable} :
    Methods ts m n decls → Token.InOrder ts →
      Parts ts (decls.flatMap Callable.spans) (Callable.allPlots decls)
  | .none, _ => parts_nil
  | .some hfirst hothers, ho => by
      rw [List.flatMap_cons]
      exact (hfirst.parts ho.left).left.append (hothers.parts ho.right).right

end

/-- Statements in a row do not overlap. -/
theorem Sequence.apart {ts : List Token} {m n : Nat} {ss : List Stmt} :
    Sequence ts m n ss → Token.InOrder ts →
      (ss.map Stmt.span).Pairwise fun a b => a.stop ≤ b.start
  | .none, _ => List.Pairwise.nil
  | .skip _ _ hothers, ho => hothers.apart ho.right
  | .some hfirst hothers, ho => by
      refine (hothers.apart ho.right).cons fun a ha => ?_
      have hbehind := (hothers.laid ho.right).stmtParts.within a ha
      exact (hfirst.laid ho.left).stmt.stop_le_start hbehind ho

end Rough

namespace Program

/-- All nodes of a program reach from the start of a token to the end of one. -/
theorem within_ofCursor {c : Cursor} (hc : c.Closed) (ho : Token.Ordered c.upcoming) :
    Rough.AllWithin c.upcoming (Stmt.allTrees (ofCursor c).statements) := by
  obtain ⟨ts, hpasses, hstatements⟩ := ofCursor_goes hc.over
  rw [hpasses.upcoming] at ho ⊢
  intro node hnode
  have hspan : node.span ∈ (Stmt.allPlots (ofCursor c).statements).map Plot.span := by
    rw [Stmt.map_span_allPlots]
    exact List.mem_map_of_mem hnode
  obtain ⟨p, hp, hspan⟩ := List.mem_map.mp hspan
  rw [← hspan]
  exact ((hstatements.laid ho.inOrder.left).left p hp).1

/-- Whatever the tokens are, as long as none starts before the end of the one before: the nodes of
the program reach from the start of a token that was taken to the end of one that is not before it,
they cover what they hold, and statements in a row do not overlap. -/
theorem laid_ofTokens {tokens : List Token}
    (hforward : ∀ t ∈ tokens, t.span.start ≤ t.span.stop)
    (hnext : tokens.IsChain fun t u => t.span.stop ≤ u.span.start) :
    let c := Cursor.ofTokens tokens
    let taken := c.taken (lastCursor c)
    let statements := (ofTokens tokens).statements
    taken <+: tokens ∧ Rough.Laid taken (Stmt.allPlots statements) ∧
      (statements.map Stmt.span).Pairwise fun a b => a.stop ≤ b.start := by
  intro c taken statements
  obtain ⟨ts, hpasses, hstatements⟩ := ofCursor_goes (Cursor.closed_ofTokens tokens).over
  have htaken : taken = ts := Cursor.taken_eq hpasses.upcoming
  have htakes : taken <+: tokens := by
    have hupcoming : c.upcoming <+: tokens := List.takeWhile_prefix _
    rw [htaken]
    exact (hpasses.upcoming ▸ List.prefix_append ts _).trans hupcoming
  have ho : Token.InOrder taken := by
    obtain ⟨rest, hrest⟩ := htakes
    exact (hrest ▸ Token.InOrder.of_isChain hforward hnext).left
  rw [← htaken] at hstatements
  exact ⟨htakes, hstatements.laid ho, hstatements.apart ho⟩

/-- A loop is taken apart into nodes that share its span, and a target that nothing can be assigned
to stands alone. -/
theorem laid_ofTokens_loop :
    let source := "for (var i = 0; i < 3; i = i + 1) f(i).g = 1 = (2); 4 = 5;"
    let tokens := (Scan.ofSource source).tokens
    let c := Cursor.ofTokens tokens
    let taken := c.taken (lastCursor c)
    let statements := (ofTokens tokens).statements
    taken <+: tokens ∧ (Stmt.allPlots statements).length = 21 ∧
      Rough.Laid taken (Stmt.allPlots statements) ∧
      statements.map Stmt.span = [⟨0, 51⟩, ⟨52, 58⟩] ∧
      (statements.map Stmt.span).Pairwise fun a b => a.stop ≤ b.start := by
  intro source tokens c taken statements
  obtain ⟨htakes, hlaid, hapart⟩ :=
    @laid_ofTokens tokens (by decide +kernel) (by decide +kernel)
  exact ⟨htakes, by decide +kernel, hlaid, by decide +kernel, hapart⟩

end Program

end LamScope
