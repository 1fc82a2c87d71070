import LamScope.Proofs.Scope.Trace
import LamScope.Syntax.Reading

/-!
# Records of names

Main statement: a completed walk records just the occurrences of names, read or assigned, that some
scope around them declares before them, each with the number of scopes between it and the nearest
such one. The occurrences are those of all variables and assignments of the tree.
-/
namespace LamScope

namespace Course

theorem filterMap_record?_report (fs : List Finding) :
    (fs.map Event.report).filterMap Event.record? = [] := by
  induction fs with
  | nil => rfl
  | cons f fs ih => exact ih

theorem filterMap_record?_record (rs : List (Nat × Nat)) :
    (rs.map fun (id, distance) => Event.record id distance).filterMap Event.record? = rs := by
  induction rs with
  | nil => rfl
  | cons r rs ih => simp [Event.record?, ih]

/-- Only occurrences are recorded. -/
theorem Moment.filterMap_record?_events (m : Moment) :
    m.events.filterMap Event.record? = (m.occurrence?.bind Occurrence.record?).toList := by
  rw [events, List.filterMap_append, filterMap_record?_report, filterMap_record?_record,
    List.nil_append]

def Step.reference? : Step → Option (Nat × Word)
  | .read id w | .assign id w => some (id, w)
  | _ => none

namespace Item
variable (around : List Log) (enclosure : Enclosure)

/-- The names that a part of a program reads or assigns. -/
def references (items : List Item) : List (Nat × Word) :=
  ((allMoments around enclosure items).filterMap Moment.occurrence?).map Occurrence.reference

theorem references_append (xs ys : List Item) :
    references around enclosure (xs ++ ys) =
      references around enclosure xs ++ references (extend around (log xs)) enclosure ys := by
  simp only [references, allMoments_append, List.filterMap_append, List.map_append]

theorem references_step (s : Step) :
    references around enclosure [.step s] = s.reference?.toList := by
  cases s <;> rfl

theorem references_cons (s : Step) (items : List Item) :
    references around enclosure (.step s :: items) =
      s.reference?.toList ++ references (extend around (log [.step s])) enclosure items := by
  rw [← List.singleton_append, references_append, references_step]

theorem references_steps (ss : List Step) :
    references around enclosure (ss.map .step) = ss.filterMap Step.reference? := by
  induction ss generalizing around with
  | nil => rfl
  | cons s ss ih =>
      rw [List.map_cons, references_cons, ih, List.filterMap_cons]
      cases s.reference? <;> rfl

theorem references_frame (callable : Option Enclosure) (body : List Item) :
    references around enclosure [.frame callable body] =
      references ([] :: around) (callable.getD enclosure) body := by
  simp [references, allMoments, moments, Moment.occurrence?]

end Item

end Course

open Course

mutual

/-- The steps of an expression read and assign just its variables. -/
theorem Expr.steps_references : ∀ e : Expr,
    (e.steps.filterMap Step.reference?).Perm e.references
  | .literal .. | .read .. => .rfl
  | .assign node name value => by
      rw [steps, references, List.filterMap_append]
      exact (List.perm_append_singleton _ _).trans (value.steps_references.cons _)
  | .binary _ _ left right | .logical _ _ left right => by
      rw [steps, references, List.filterMap_append]
      exact left.steps_references.append right.steps_references
  | .unary _ _ operand => operand.steps_references
  | .group _ inner => inner.steps_references
  | .call _ callee args => by
      rw [steps, references, List.filterMap_append]
      exact callee.steps_references.append (allSteps_references args)
  | .property _ object _ => object.steps_references
  | .setProperty _ object _ value => by
      rw [steps, references, List.filterMap_append]
      exact (value.steps_references.append object.steps_references).trans List.perm_append_comm

theorem Expr.allSteps_references : ∀ es : List Expr,
    ((allSteps es).filterMap Step.reference?).Perm (allReferences es)
  | [] => .rfl
  | e :: es => by
      rw [allSteps, allReferences, List.filterMap_append]
      exact e.steps_references.append (allSteps_references es)

end

section
variable (around : List Log) (enclosure : Enclosure)

theorem Expr.items_references (e : Expr) :
    (Item.references around enclosure e.items).Perm e.references := by
  rw [items, Item.references_steps]
  exact e.steps_references

theorem Expr.clauseItems_references (clause : Option Expr) :
    (Item.references around enclosure (clauseItems clause)).Perm (optionReferences clause) := by
  cases clause with
  | none => exact .rfl
  | some e => exact e.items_references around enclosure

/-- Declarations are no references. -/
theorem Word.parameterItems_references (names : List Word) :
    Item.references around enclosure (parameterItems names) = [] := by
  induction names generalizing around with
  | nil => rfl
  | cons w names ih =>
      have hitems : parameterItems (w :: names) =
          .step (.declare w) :: .step (.define w) :: parameterItems names := rfl
      rw [hitems, Item.references_cons, Item.references_cons, ih]
      rfl

end

mutual

/-- The items of a statement read and assign just its variables. -/
theorem Stmt.items_references : ∀ (around : List Log) (enclosure : Enclosure) (s : Stmt),
    (Item.references around enclosure s.items).Perm s.references
  | around, enclosure, .block _ body => by
      rw [items, Item.references_frame]
      exact allItems_references _ _ body
  | around, enclosure, .var _ name init => by
      rw [items, references, List.cons_append, Item.references_cons, Item.references_append,
        Item.references_step]
      have h := Expr.clauseItems_references (extend around (Item.log [.step (.declare name)]))
        enclosure init
      simpa [Step.reference?] using h
  | around, enclosure, .function _ decl => by
      rw [items, Item.references_cons, Item.references_cons]
      exact callableItem_references _ _ _ decl
  | around, enclosure, .expr _ value | around, enclosure, .print _ value =>
      value.items_references around enclosure
  | around, enclosure, .ifThen _ cond body | around, enclosure, .loop _ cond body => by
      rw [items, references, Item.references_append]
      exact (cond.items_references _ _).append (items_references _ _ body)
  | around, enclosure, .ifThenElse _ cond body otherwise => by
      rw [items, references, Item.references_append, Item.references_append]
      exact ((cond.items_references _ _).append (items_references _ _ body)).append
        (items_references _ _ otherwise)
  | around, enclosure, .ret _ keyword value => by
      rw [items, Item.references_cons]
      exact Expr.clauseItems_references _ _ value
  | around, enclosure, .classDef _ name methods => by
      rw [items, Item.references_cons, Item.references_cons]
      exact methodItems_references _ _ methods

theorem Stmt.allItems_references : ∀ (around : List Log) (enclosure : Enclosure)
    (ss : List Stmt), (Item.references around enclosure (allItems ss)).Perm (allReferences ss)
  | _, _, [] => .rfl
  | around, enclosure, s :: ss => by
      rw [allItems, allReferences, Item.references_append]
      exact (items_references _ _ s).append (allItems_references _ _ ss)

theorem Stmt.callableItem_references : ∀ (around : List Log) (enclosure kind : Enclosure)
    (decl : Callable),
    (Item.references around enclosure [callableItem kind decl]).Perm decl.references
  | around, enclosure, kind, ⟨_, params, body⟩ => by
      rw [callableItem, Item.references_frame, Item.references_append,
        Word.parameterItems_references, List.nil_append]
      exact allItems_references _ _ body

theorem Stmt.methodItems_references : ∀ (around : List Log) (enclosure : Enclosure)
    (decls : List Callable),
    (Item.references around enclosure (methodItems decls)).Perm (Callable.allReferences decls)
  | _, _, [] => .rfl
  | around, enclosure, decl :: decls => by
      rw [methodItems, Callable.allReferences, ← List.singleton_append, Item.references_append]
      exact (callableItem_references _ _ _ decl).append (methodItems_references _ _ decls)

end

/-- The variables and assignments of a program in the order of the course. -/
def Stmt.occurrences (statements : List Stmt) : List Occurrence :=
  (course statements).filterMap Moment.occurrence?

theorem filterMap_record?_course (statements : List Stmt) :
    ((Stmt.course statements).flatMap Moment.events).filterMap Event.record? =
      (Stmt.occurrences statements).filterMap Occurrence.record? := by
  unfold Stmt.occurrences
  rw [List.filterMap_flatMap, List.filterMap_filterMap, List.filterMap_eq_flatMap_toList]
  exact congrArg (List.flatMap · _) (funext Moment.filterMap_record?_events)

theorem records_of_completed {limit : Nat} {statements : List Stmt}
    (h : (resolve limit statements).stopped = none) :
    (resolve limit statements).records =
      (Stmt.occurrences statements).filterMap Occurrence.record? := by
  unfold Visit.records
  rw [trace_resolve h, filterMap_record?_course]

/-- A completed walk records, in order, the occurrences that a scope around them declares. -/
theorem records_resolve {limit : Nat} {statements : List Stmt}
    (h : (resolve limit statements).stopped = none) :
    (resolve limit statements).records =
        (Stmt.occurrences statements).filterMap Occurrence.record? ∧
      ((Stmt.occurrences statements).map Occurrence.reference).Perm
        (Stmt.allReferences statements) := by
  constructor
  · exact records_of_completed h
  · exact Stmt.allItems_references [] .topLevel statements

/-- Locals around a function, a redeclaration, an assigned property, and a global. -/
theorem records_resolve_nested :
    let source := "{ var a; { a = a; var a = a; fun f(b) { f(a).x = b; } } var a; b = a; }"
    let statements := (Program.ofSource source).statements
    (resolve defaultLimit statements).stopped = none ∧
      (resolve defaultLimit statements).records =
        (Stmt.occurrences statements).filterMap Occurrence.record? ∧
      ((Stmt.occurrences statements).map Occurrence.reference).Perm
        (Stmt.allReferences statements) :=
  ⟨by decide +kernel, records_resolve (by decide +kernel)⟩

end LamScope
