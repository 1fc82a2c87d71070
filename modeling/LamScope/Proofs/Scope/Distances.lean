import LamScope.Proofs.Reading.Numbers
import LamScope.Proofs.Scope.Findings
import LamScope.Proofs.Scope.Records
import LamScope.Command.Inspect
import Mathlib.Data.List.Nodup

/-!
# Distances by node numbers

The references of a tree have the numbers of its nodes. Where these are distinct, a walk records
each of them at most once, the table of distances loses no record, and a number leads back to the
one name that was resolved. Main statement: this is so for the program of every source text.
-/
namespace LamScope

open Course NodeTree

/-- The references have numbers of these trees, in the same order. -/
def NodeTree.Hold (ts : List NodeTree) (references : List (Nat × Word)) : Prop :=
  (references.map Prod.fst).Sublist (allIds ts)

section
variable {ts us : List NodeTree} {xs ys : List (Nat × Word)}

theorem NodeTree.Hold.append (h : Hold ts xs) (h' : Hold us ys) : Hold (ts ++ us) (xs ++ ys) := by
  unfold Hold
  rw [List.map_append, allIds_append]
  exact List.Sublist.append h h'

theorem NodeTree.hold_nil : Hold [] [] := List.Sublist.slnil

/-- The node may be that of a variable or of an assignment. -/
theorem NodeTree.Hold.reference (h : Hold ts xs) (node : Node) (w : Word) :
    Hold [.above node ts] ((node.id, w) :: xs) := by
  unfold Hold
  rw [allIds_cons, List.cons_append]
  exact (List.Sublist.trans h (List.sublist_append_left _ _)).cons_cons _

theorem NodeTree.Hold.above (h : Hold ts xs) (node : Node) : Hold [.above node ts] xs := by
  unfold Hold
  rw [allIds_cons, List.cons_append]
  exact (List.Sublist.trans h (List.sublist_append_left _ _)).cons _

end

mutual

theorem Expr.references_hold : ∀ e : Expr, Hold [e.tree] e.references
  | .literal node _ => hold_nil.above node
  | .read node name => hold_nil.reference node name
  | .assign node name value => value.references_hold.reference node name
  | .binary node _ left right | .logical node _ left right =>
      (left.references_hold.append right.references_hold).above node
  | .unary node _ operand => operand.references_hold.above node
  | .group node inner => inner.references_hold.above node
  | .call node callee args => (callee.references_hold.append (allReferences_hold args)).above node
  | .property node object _ => object.references_hold.above node
  | .setProperty node object _ value =>
      (object.references_hold.append value.references_hold).above node

theorem Expr.allReferences_hold : ∀ es : List Expr, Hold (allTrees es) (allReferences es)
  | [] => hold_nil
  | e :: es => e.references_hold.append (allReferences_hold es)

end

theorem Expr.optionReferences_hold : ∀ clause : Option Expr,
    Hold (clauseTrees clause) (optionReferences clause)
  | none => hold_nil
  | some e => e.references_hold

mutual

theorem Stmt.references_hold : ∀ s : Stmt, Hold [s.tree] s.references
  | .block node body => (Stmt.allReferences_hold body).above node
  | .var node _ init => (Expr.optionReferences_hold init).above node
  | .function node decl => decl.references_hold.above node
  | .expr node value | .print node value => value.references_hold.above node
  | .ifThen node cond body | .loop node cond body =>
      (cond.references_hold.append body.references_hold).above node
  | .ifThenElse node cond body otherwise =>
      ((cond.references_hold.append body.references_hold).append otherwise.references_hold).above
        node
  | .ret node _ value => (Expr.optionReferences_hold value).above node
  | .classDef node _ methods => (Callable.allReferences_hold methods).above node

theorem Stmt.allReferences_hold : ∀ ss : List Stmt,
    Hold (Stmt.allTrees ss) (Stmt.allReferences ss)
  | [] => hold_nil
  | s :: ss => s.references_hold.append (Stmt.allReferences_hold ss)

theorem Callable.references_hold : ∀ decl : Callable, Hold decl.trees decl.references
  | ⟨_, _, body⟩ => Stmt.allReferences_hold body

theorem Callable.allReferences_hold : ∀ decls : List Callable,
    Hold (Callable.allTrees decls) (Callable.allReferences decls)
  | [] => hold_nil
  | decl :: decls => decl.references_hold.append (Callable.allReferences_hold decls)

end

namespace Locals

theorem insert_perm {id distance : Nat} {entries : List (Nat × Nat)}
    (h : id ∉ entries.map Prod.fst) :
    (insert id distance entries).Perm ((id, distance) :: entries) := by
  induction entries with
  | nil => exact .rfl
  | cons e rest ih =>
      rw [List.map_cons, List.mem_cons, not_or] at h
      rw [insert, if_neg h.1]
      split
      · exact .rfl
      · exact ((ih h.2).cons e).trans (.swap _ _ _)

theorem foldl_record_perm {records : List (Nat × Nat)} {t : Locals}
    (h : ((t.entries ++ records).map Prod.fst).Nodup) :
    (records.foldl (fun t r => t.record r.1 r.2) t).entries.Perm (t.entries ++ records) := by
  induction records generalizing t with
  | nil => simp
  | cons r records ih =>
      have hkeys := (@List.perm_middle _ r t.entries records).map Prod.fst
      have hr : r.1 ∉ (t.entries ++ records).map Prod.fst :=
        (List.nodup_cons.mp (hkeys.nodup_iff.mp h)).1
      have hinsert : (t.record r.1 r.2).entries.Perm (r :: t.entries) :=
        insert_perm fun hmem => hr (by
          rw [List.map_append]
          exact List.mem_append_left _ hmem)
      have hall := (hinsert.append_right records).trans List.perm_middle.symm
      exact (ih ((hall.map Prod.fst).nodup_iff.mpr h)).trans hall

/-- No record overwrites another. -/
theorem ofRecords_perm {records : List (Nat × Nat)} (h : (records.map Prod.fst).Nodup) :
    (ofRecords records).entries.Perm records :=
  foldl_record_perm (t := empty) h

end Locals

theorem isPrefix_records (limit : Nat) (statements : List Stmt) :
    (resolve limit statements).records <+:
      (Stmt.occurrences statements).filterMap Occurrence.record? := by
  have hrecords := (isPrefix_trace limit statements).filterMap Event.record?
  rwa [filterMap_record?_course] at hrecords

theorem references_perm (statements : List Stmt) :
    ((Stmt.occurrences statements).map Occurrence.reference).Perm
      (Stmt.allReferences statements) :=
  Stmt.allItems_references [] .topLevel statements

theorem Course.Occurrence.ids_sublist (os : List Occurrence) :
    ((os.filterMap record?).map Prod.fst).Sublist (os.map Occurrence.id) := by
  induction os with
  | nil => exact List.Sublist.slnil
  | cons o os ih =>
      rw [List.filterMap_cons, List.map_cons]
      cases h : o.distance? with
      | none => simpa [record?, h] using ih.cons o.id
      | some distance => simpa [record?, h] using ih.cons_cons o.id

theorem Course.Occurrence.id_of_record?_eq_some {o : Occurrence} {r : Nat × Nat}
    (h : o.record? = some r) : o.id = r.1 := by
  obtain ⟨distance, -, rfl⟩ := Option.map_eq_some_iff.mp h
  rfl

/-- Each record is the only one with its number and is kept in the table, and its number belongs to
the one name in the tree that it was made for. -/
structure Traceable (statements : List Stmt) (records : List (Nat × Nat)) : Prop where
  distinct : (records.map Prod.fst).Nodup
  kept : (Locals.ofRecords records).entries.Perm records
  unambiguous : ((Stmt.allReferences statements).map Prod.fst).Nodup
  named : ∀ r ∈ (Locals.ofRecords records).entries, ∃ o ∈ Stmt.occurrences statements,
    o.record? = some r ∧
      (Stmt.allReferences statements).find? (fun n => n.1 == r.1) = some o.reference

theorem traceable_nil {statements : List Stmt} (h : WellNumbered (Stmt.allTrees statements)) :
    Traceable statements [] where
  distinct := List.nodup_nil
  kept := .rfl
  unambiguous := (Stmt.allReferences_hold statements).nodup h.distinct
  named _ hr := nomatch hr

theorem traceable_resolve {statements : List Stmt} (h : WellNumbered (Stmt.allTrees statements))
    (limit : Nat) : Traceable statements (resolve limit statements).records := by
  have hreferences : ((Stmt.allReferences statements).map Prod.fst).Nodup :=
    (Stmt.allReferences_hold statements).nodup h.distinct
  have hfirst := isPrefix_records limit statements
  have hdistinct : ((resolve limit statements).records.map Prod.fst).Nodup := by
    have hperm := (references_perm statements).map Prod.fst
    rw [List.map_map] at hperm
    have hids := (Occurrence.ids_sublist (Stmt.occurrences statements)).nodup
      (hperm.nodup_iff.mpr hreferences)
    exact (hfirst.map Prod.fst).sublist.nodup hids
  have hkept := Locals.ofRecords_perm hdistinct
  refine ⟨hdistinct, hkept, hreferences, fun r hr => ?_⟩
  obtain ⟨o, ho, hrecord⟩ :=
    List.mem_filterMap.mp (hfirst.subset (hkept.mem_iff.mp hr))
  refine ⟨o, ho, hrecord, ?_⟩
  have hid := Occurrence.id_of_record?_eq_some hrecord
  have hmem := (references_perm statements).mem_iff.mp (List.mem_map_of_mem ho)
  cases hfind : (Stmt.allReferences statements).find? fun n => n.1 == r.1 with
  | none => simpa [Occurrence.reference, hid] using List.find?_eq_none.mp hfind _ hmem
  | some n =>
      have hn : n.1 = r.1 := by simpa using List.find?_some hfind
      have hsame : n.1 = o.reference.1 := hn.trans hid.symm
      rw [List.inj_on_of_nodup_map hreferences (List.mem_of_find?_eq_some hfind) hmem hsame]

end LamScope
