import LamScope.Proofs.Scope.Course
import LamScope.Proofs.Scope.Depth

/-!
# Walks follow the course

A walk that is not stopped emits just what the course of its part of the program calls for, moment
by moment, and leaves the scopes and the enclosure as the course says. The run of operators, calls
and properties that is walked from its head needs no case of its own in the course: it does what
its parts do from left to right.
-/
namespace LamScope

open Course

/-- The visit emits what the items call for and leaves the scopes extended by them. -/
structure Visit.Shows (v : Visit) (around : List Log) (enclosure : Enclosure)
    (items : List Item) : Prop where
  trace : v.trace = (Item.allMoments around enclosure items).flatMap Moment.events
  scopes : v.state.scopes.OfLogs (extend around (Item.log items))
  enclosure : v.state.enclosure = enclosure

namespace Walk

/-- Unless it is stopped, the walk shows the items from wherever it starts. -/
def Follows (w : Walk) (items : List Item) : Prop :=
  ∀ (s : Surroundings) (around : List Log), s.scopes.OfLogs around → (w s).stopped = none →
    (w s).Shows around s.enclosure items

variable {a b body : Walk} {xs ys : List Item}

theorem skip_follows : skip.Follows [] := by
  intro s around hs _
  exact ⟨rfl, by simpa [skip, Item.log] using hs, rfl⟩

theorem stop_follows (limit : Nat) (span : Span) : (stop limit span).Follows xs := by
  intro s around _ hstop
  cases hstop

theorem append_follows (ha : a.Follows xs) (hb : b.Follows ys) : (a ++ b).Follows (xs ++ ys) := by
  intro s around hs hstop
  rw [append_def] at hstop ⊢
  unfold andThen at hstop ⊢
  cases hstopped : (a s).stopped with
  | some deep => simp [hstopped] at hstop
  | none =>
      simp only [hstopped] at hstop ⊢
      have hx := ha s around hs hstopped
      have hy := hb (a s).state _ hx.scopes hstop
      constructor
      · rw [hx.trace, hy.trace, hx.enclosure, Item.allMoments_append, List.flatMap_append]
      · rw [Item.log_append, extend_append]
        exact hy.scopes
      · exact hy.enclosure.trans hx.enclosure

theorem step_follows {st : Step} {w : Walk}
    (htrace : ∀ s around, s.scopes.OfLogs around →
      (w s).trace = (Moment.doing st around s.enclosure).events)
    (hscopes : ∀ s around, s.scopes.OfLogs around →
      (w s).state.scopes.OfLogs (extend around st.update?.toList))
    (henclosure : ∀ s, (w s).state.enclosure = s.enclosure) : w.Follows [.step st] := by
  intro s around hs _
  constructor
  · rw [htrace s around hs]
    simp [Item.allMoments, Item.moments]
  · rw [Item.log_singleton]
    exact hscopes s around hs
  · exact henclosure s

theorem atLine_follows (n : Nat) : (atLine n).Follows [] := by
  intro s around hs _
  exact ⟨rfl, by simpa [atLine, change, Item.log] using hs, rfl⟩

theorem declare_follows (w : Word) : (declare w).Follows [.step (.declare w)] := by
  refine step_follows (fun s around hs => ?_) (fun s around hs => (hs.declare w).2) fun s => rfl
  have htrace : (declare w s).trace = ((s.scopes.declare w).1.map fun previous =>
      Event.report (.of (.duplicate w.text previous.span) w)).toList := by
    simp [declare, append_def, andThen, atLine, change, emit]
  rw [htrace, (hs.declare w).1]
  unfold Moment.events Moment.findings duplicates
  cases around with
  | nil => rfl
  | cons log outer =>
      cases h : log.last? w.text <;> simp [Log.binding?, h, Moment.occurrence?]

theorem define_follows (w : Word) : (define w).Follows [.step (.define w)] :=
  step_follows (fun _ _ _ => rfl) (fun _ _ hs => hs.define w.text) fun _ => rfl

theorem recordName_trace {s : Surroundings} {around : List Log} (hs : s.scopes.OfLogs around)
    (id : Nat) (w : Word) :
    (recordName id w s).trace = (Occurrence.record? ⟨id, w, around⟩).toList.map
      fun (id, distance) => .record id distance := by
  unfold recordName emit Occurrence.record? Occurrence.distance?
  dsimp only
  rw [hs.distance?]
  cases around.findIdx? (·.declares w.text) <;> rfl

theorem recordName_follows (id : Nat) (w : Word) :
    (recordName id w).Follows [.step (.assign id w)] := by
  refine step_follows (fun s around hs => recordName_trace hs id w) (fun s around hs => ?_)
    fun s => rfl
  exact (extend_nil_log around).symm ▸ hs

theorem checkDefined_trace {s : Surroundings} {around : List Log} (hs : s.scopes.OfLogs around)
    (w : Word) : (checkDefined w s).trace = (selfReferences around w).map .report := by
  have houter : (s.scopes.outer? w.text).map (·.span) =
      (around.tail.findSome? (·.last? w.text)).map (·.span) := by
    rw [hs.outer?]
    induction around.tail with
    | nil => rfl
    | cons log outer ih =>
        rw [List.findSome?_cons, List.findSome?_cons]
        cases hl : log.last? w.text with
        | none => simpa [Log.binding?, hl] using ih
        | some previous => simp [Log.binding?, hl]
  unfold checkDefined emit selfReferences
  dsimp only
  rw [houter, hs.innermost?]
  cases around with
  | nil => rfl
  | cons log outer =>
      have hdeclares := log.last?_isSome w.text
      cases hl : log.last? w.text with
      | none =>
          rw [hl] at hdeclares
          simp [Log.binding?, hl, ← hdeclares]
      | some previous =>
          rw [hl] at hdeclares
          cases hdefined : log.definedSince w.text <;>
            simp [Log.binding?, hl, ← hdeclares, hdefined]

theorem readName_follows (id : Nat) (w : Word) : (readName id w).Follows [.step (.read id w)] := by
  refine step_follows (fun s around hs => ?_) (fun s around hs => hs.markUsed w.text) fun s => rfl
  have hmarked := hs.markUsed w.text
  have htrace : (readName id w s).trace = (checkDefined w s).trace ++
      (recordName id w { s with scopes := (s.scopes.markUsed w.text).2 }).trace := by
    simp [readName, append_def, andThen, atLine, change, checkDefined, recordName, emit]
  rw [htrace, checkDefined_trace hs, recordName_trace hmarked]
  unfold Moment.events Moment.occurrence? Occurrence.record? Occurrence.distance?
  rw [Option.bind_some, findIdx?_extend around [.used w.text] w.text rfl]
  rfl

theorem checkReturn_follows (keyword : Word) :
    (checkReturn keyword).Follows [.step (.ret keyword)] := by
  refine step_follows (fun s around hs => ?_) (fun s around hs => ?_) fun s => rfl
  · have htrace : (checkReturn keyword s).trace =
        if s.enclosure.allowsReturn then [] else [.report (.of .strayReturn keyword)] := rfl
    rw [htrace]
    cases h : s.enclosure.allowsReturn <;>
      simp [h, Moment.events, Moment.findings, strayReturns, Moment.occurrence?]
  · exact (extend_nil_log around).symm ▸ hs

/-- A frame shows its items, from within the enclosure that its body has. -/
theorem inFrame_shows (h : body.Follows xs) {s : Surroundings} {around : List Log}
    (hs : s.scopes.OfLogs around) (hstop : (inFrame body s).stopped = none) :
    (inFrame body s).Shows around s.enclosure [.frame none xs] := by
  have hbody := h { s with scopes := s.scopes.enter } ([] :: around) hs.enter hstop
  have hleave := hbody.scopes.leave
  have hb : (body { s with scopes := s.scopes.enter }).stopped = none := hstop
  constructor
  · have htrace : (inFrame body s).trace =
        (body { s with scopes := s.scopes.enter }).trace ++
          (body { s with scopes := s.scopes.enter }).state.scopes.leave.1.map fun w =>
            .report (.of (.unused w.text) w) := by
      unfold inFrame
      simp only [hb]
    rw [htrace, hbody.trace, hleave.1]
    simp [Item.allMoments, Item.moments, Moment.events, Moment.findings, unusedFinding,
      Moment.occurrence?]
  · exact (extend_nil_log around).symm ▸ hleave.2
  · exact hbody.enclosure

theorem inFrame_follows (h : body.Follows xs) : (inFrame body).Follows [.frame none xs] :=
  fun _ _ hs hstop => inFrame_shows h hs hstop

theorem inCallable_follows (h : body.Follows xs) (kind : Enclosure) :
    (inCallable kind (inFrame body)).Follows [.frame (some kind) xs] := by
  intro s around hs hstop
  have hshows := inFrame_shows h (s := { s with enclosure := kind }) hs hstop
  exact ⟨hshows.trace, hshows.scopes, rfl⟩

theorem each_follows {α : Type} {f : α → Walk} {items : α → List Item}
    (h : ∀ a, (f a).Follows (items a)) (as : List α) :
    (each f as).Follows (as.flatMap items) := by
  induction as with
  | nil => exact skip_follows
  | cons a as ih => exact append_follows (h a) ih

end Walk

theorem Expr.allSteps_eq (es : List Expr) : allSteps es = es.flatMap steps := by
  induction es with
  | nil => rfl
  | cons e es ih => rw [allSteps, ih, List.flatMap_cons]

theorem Stmt.allItems_eq (ss : List Stmt) : allItems ss = ss.flatMap items := by
  induction ss with
  | nil => rfl
  | cons s ss ih => rw [allItems, ih, List.flatMap_cons]

theorem Stmt.methodItems_eq (decls : List Callable) :
    methodItems decls = decls.flatMap fun decl => [callableItem .method decl] := by
  induction decls with
  | nil => rfl
  | cons decl decls ih => rw [methodItems, ih, List.flatMap_cons, List.singleton_append]

namespace Walk

section
variable {enter : Expr → Walk} (henter : ∀ e, (enter e).Follows e.items)
include henter

theorem each_expr_follows (es : List Expr) :
    (each enter es).Follows ((Expr.allSteps es).map .step) := by
  rw [Expr.allSteps_eq, List.map_flatMap]
  exact each_follows henter es

/-- A run of operators, calls and properties shows its parts from left to right. -/
theorem chain_follows : ∀ (e : Expr) {after : Walk} {ys : List Item}, after.Follows ys →
    (chain enter e after).Follows (e.items ++ ys)
  | .binary _ _ left right, after, ys, h | .logical _ _ left right, after, ys, h => by
      have hl := chain_follows left (append_follows (henter right) h)
      rwa [← List.append_assoc, Expr.items, Expr.items, ← List.map_append] at hl
  | .call _ callee args, after, ys, h => by
      have hc := chain_follows callee (append_follows (each_expr_follows henter args) h)
      rwa [← List.append_assoc, Expr.items, ← List.map_append] at hc
  | .property _ object _, after, ys, h => chain_follows object h
  | .literal .., _, _, h | .read .., _, _, h | .assign .., _, _, h | .unary .., _, _, h
  | .group .., _, _, h | .setProperty .., _, _, h => append_follows (henter _) h

theorem insideExpr_follows (e : Expr) : (insideExpr enter e).Follows e.items := by
  cases e with
  | literal => exact skip_follows
  | read node name => exact readName_follows node.id name
  | assign node name value =>
      have h := append_follows (append_follows (henter value) (atLine_follows name.line))
        (recordName_follows node.id name)
      rw [List.append_nil] at h
      rw [Expr.items, Expr.steps, List.map_append]
      exact h
  | binary _ _ left right | logical _ _ left right =>
      have h := chain_follows henter left (henter right)
      rwa [Expr.items, Expr.items, ← List.map_append] at h
  | unary _ _ operand => exact henter operand
  | group _ inner => exact henter inner
  | call _ callee args =>
      have h := chain_follows henter callee (each_expr_follows henter args)
      rwa [Expr.items, ← List.map_append] at h
  | property _ object _ =>
      have h := chain_follows henter object skip_follows
      rwa [List.append_nil] at h
  | setProperty _ object _ value =>
      have h := append_follows (henter value) (henter object)
      rwa [Expr.items, Expr.items, ← List.map_append] at h

theorem optional_follows (clause : Option Expr) :
    (optional enter clause).Follows (Expr.clauseItems clause) := by
  cases clause with
  | none => exact skip_follows
  | some e => exact henter e

end

theorem expr_follows (limit levels : Nat) (e : Expr) : (expr limit levels e).Follows e.items := by
  induction levels generalizing e with
  | zero => exact stop_follows limit e.span
  | succ levels ih => exact insideExpr_follows ih e

section
variable {enter : Stmt → Walk} (henter : ∀ s, (enter s).Follows s.items)
include henter

theorem callable_follows (kind : Enclosure) (decl : Callable) :
    (callable enter kind decl).Follows [Stmt.callableItem kind decl] := by
  obtain ⟨name, params, body⟩ := decl
  have hparams := each_follows
    (fun w => append_follows (declare_follows w) (define_follows w)) params
  have hbody := each_follows henter body
  have h := inCallable_follows (append_follows hparams hbody) kind
  rwa [← Stmt.allItems_eq] at h

theorem insideStmt_follows {enterExpr : Expr → Walk}
    (hexpr : ∀ e, (enterExpr e).Follows e.items) (s : Stmt) :
    (insideStmt enterExpr enter s).Follows s.items := by
  cases s with
  | block _ body =>
      have h := inFrame_follows (each_follows henter body)
      rwa [← Stmt.allItems_eq] at h
  | var _ name init =>
      exact append_follows (append_follows (declare_follows name) (optional_follows hexpr init))
        (define_follows name)
  | function _ decl =>
      exact append_follows (append_follows (declare_follows decl.name) (define_follows decl.name))
        (callable_follows henter .function decl)
  | expr _ value => exact hexpr value
  | print _ value => exact hexpr value
  | ifThen _ cond body => exact append_follows (hexpr cond) (henter body)
  | ifThenElse _ cond body otherwise =>
      exact append_follows (append_follows (hexpr cond) (henter body)) (henter otherwise)
  | ret _ keyword value =>
      exact append_follows (checkReturn_follows keyword) (optional_follows hexpr value)
  | loop _ cond body => exact append_follows (hexpr cond) (henter body)
  | classDef _ name methods =>
      have hmethods := each_follows (callable_follows henter .method) methods
      rw [← Stmt.methodItems_eq] at hmethods
      exact append_follows (append_follows (declare_follows name) (define_follows name)) hmethods

end

theorem stmt_follows (limit levels : Nat) (s : Stmt) : (stmt limit levels s).Follows s.items := by
  induction levels generalizing s with
  | zero => exact stop_follows limit s.span
  | succ levels ih => exact insideStmt_follows ih (expr_follows limit levels) s

end Walk

/-- A walk that completes emits just what the course of the program calls for. -/
theorem trace_resolve {limit : Nat} {statements : List Stmt}
    (h : (resolve limit statements).stopped = none) :
    (resolve limit statements).trace = (Stmt.course statements).flatMap Moment.events := by
  have hfollows := Walk.each_follows (Walk.stmt_follows limit limit) statements
  rw [← Stmt.allItems_eq] at hfollows
  rw [resolve_eq] at h ⊢
  exact (hfollows .start [] ScopeStack.ofLogs_empty h).trace

end LamScope
