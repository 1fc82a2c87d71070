import LamScope.Diagnostic.Excerpt
import LamScope.Proofs.Text.Lines

/-!
# Excerpts of labels

Labels that start on one line share an excerpt. Main statement: the excerpts of labels come in the
order of their lines, there is one for each line on which a label starts, and it has the text of
that line and the marks of those labels, in their order.
-/
namespace LamScope

namespace Label

/-- The line that a label starts on. -/
def line (m : LineMap) (l : Label) : Nat := (m.position l.span.start).line

def column (m : LineMap) (l : Label) : Nat := (m.position l.span.start).column

/-- The column before which a label ends, which is that of the end of the text of its line if it
ends on another line. -/
def stop (m : LineMap) (text : List Char) (l : Label) : Nat :=
  if (m.position l.span.stop).line = l.line m then (m.position l.span.stop).column
  else Text.byteLength text + 1

/-- The mark of a label under the text of its line. -/
def mark (m : LineMap) (text : List Char) (l : Label) : Mark :=
  ⟨l.column m, max (l.stop m text) (l.column m + 1), l.role, l.message⟩

/-- Those of the labels that start on a line. -/
def onLine (m : LineMap) (n : Nat) (labels : List Label) : List Label :=
  labels.filter fun l => l.line m = n

theorem mem_onLine {m : LineMap} {n : Nat} {labels : List Label} {l : Label} :
    l ∈ onLine m n labels ↔ l ∈ labels ∧ l.line m = n := by
  simp [onLine]

theorem onLine_concat (m : LineMap) (n : Nat) (labels : List Label) (l : Label) :
    onLine m n (labels ++ [l]) = onLine m n labels ++ if l.line m = n then [l] else [] := by
  rw [onLine, List.filter_append, List.filter_cons, List.filter_nil]
  simp only [decide_eq_true_eq]
  rfl

end Label

namespace Excerpt

variable {m : LineMap} {l : Label} {labels : List Label} {e f x : Excerpt} {es : List Excerpt}

theorem ofLabel?_eq {text : List Char} (h : m.lineText? (l.line m) = some text) :
    ofLabel? m l = some ⟨l.line m, text, [l.mark m text]⟩ := by
  unfold ofLabel?
  dsimp only
  rw [show m.lineText? (m.position l.span.start).line = some text from h]
  rfl

theorem ofLabels_singleton {text : List Char} (h : m.lineText? (l.line m) = some text) :
    ofLabels m [l] = [⟨l.line m, text, [l.mark m text]⟩] := by
  unfold ofLabels
  rw [List.filterMap_cons, ofLabel?_eq h]
  rfl

theorem mem_map_line_add {n : Nat} :
    n ∈ (add x es).map line ↔ n = x.line ∨ n ∈ es.map line := by
  induction es with
  | nil => simp [add]
  | cons f es ih =>
      rw [add]
      split
      · simp
      split
      · rename_i hline
        simp [hline]
      · rw [List.map_cons, List.mem_cons, ih, List.map_cons, List.mem_cons]
        exact or_left_comm

theorem pairwise_add (h : es.Pairwise (·.line < ·.line)) :
    (add x es).Pairwise (·.line < ·.line) := by
  induction es with
  | nil => exact List.pairwise_singleton _ _
  | cons f es ih =>
      obtain ⟨hf, hes⟩ := List.pairwise_cons.mp h
      rw [add]
      split
      · rename_i hlt
        refine List.pairwise_cons.mpr ⟨List.forall_mem_cons.mpr ⟨hlt, fun g hg => ?_⟩, h⟩
        exact Nat.lt_trans hlt (hf g hg)
      split
      · exact List.pairwise_cons.mpr ⟨hf, hes⟩
      · rename_i hnlt hne
        refine List.pairwise_cons.mpr ⟨fun g hg => ?_, ih hes⟩
        rcases mem_map_line_add.mp (List.mem_map_of_mem hg) with hline | hline
        · omega
        · obtain ⟨g', hg', hline⟩ := List.mem_map.mp hline
          exact hline ▸ hf g' hg'

/-- An excerpt stays as it is, or gets the marks of the one added, or is the one added. -/
theorem of_mem_add (h : es.Pairwise (·.line < ·.line)) (hf : f ∈ add x es) :
    f ∈ es ∧ f.line ≠ x.line ∨
      (∃ e ∈ es, e.line = x.line ∧ f = { e with marks := e.marks ++ x.marks }) ∨
      f = x ∧ ∀ e ∈ es, e.line ≠ x.line := by
  induction es with
  | nil => exact .inr (.inr ⟨List.mem_singleton.mp hf, nofun⟩)
  | cons g es ih =>
      obtain ⟨hg, hes⟩ := List.pairwise_cons.mp h
      rw [add] at hf
      split at hf
      · rename_i hlt
        have hall : ∀ e ∈ g :: es, e.line ≠ x.line := by
          refine List.forall_mem_cons.mpr ⟨Nat.ne_of_gt hlt, fun e he => ?_⟩
          exact Nat.ne_of_gt (Nat.lt_trans hlt (hg e he))
        rcases List.mem_cons.mp hf with rfl | hf
        · exact .inr (.inr ⟨rfl, hall⟩)
        · exact .inl ⟨hf, hall f hf⟩
      split at hf
      · rename_i hline
        rcases List.mem_cons.mp hf with rfl | hf
        · exact .inr (.inl ⟨g, List.mem_cons_self, hline.symm, rfl⟩)
        · exact .inl ⟨List.mem_cons_of_mem g hf, hline ▸ Nat.ne_of_gt (hg f hf)⟩
      · rename_i hline
        rcases List.mem_cons.mp hf with rfl | hf
        · exact .inl ⟨List.mem_cons_self, Ne.symm hline⟩
        · rcases ih hes hf with ⟨hf, hne⟩ | ⟨e, he, heline, rfl⟩ | ⟨rfl, hall⟩
          · exact .inl ⟨List.mem_cons_of_mem g hf, hne⟩
          · exact .inr (.inl ⟨e, List.mem_cons_of_mem g he, heline, rfl⟩)
          · exact .inr (.inr ⟨rfl, List.forall_mem_cons.mpr ⟨Ne.symm hline, hall⟩⟩)

/-- Excerpts that show labels with the lines they start on. -/
structure Collect (m : LineMap) (labels : List Label) (es : List Excerpt) : Prop where
  ordered : es.Pairwise (·.line < ·.line)
  lines : ∀ n, n ∈ es.map line ↔ ∃ l ∈ labels, l.line m = n
  text : ∀ e ∈ es, m.lineText? e.line = some e.text
  marks : ∀ e ∈ es, e.marks = (Label.onLine m e.line labels).map (Label.mark m e.text)

theorem Collect.add {text : List Char} (h : Collect m labels es)
    (htext : m.lineText? (l.line m) = some text) :
    Collect m (labels ++ [l]) (add ⟨l.line m, text, [l.mark m text]⟩ es) where
  ordered := pairwise_add h.ordered
  lines n := by
    rw [mem_map_line_add, h.lines n]
    simp [or_comm, eq_comm]
  text f hf := by
    rcases of_mem_add h.ordered hf with ⟨hf, -⟩ | ⟨e, he, -, rfl⟩ | ⟨rfl, -⟩
    · exact h.text f hf
    · exact h.text e he
    · exact htext
  marks f hf := by
    rw [Label.onLine_concat]
    rcases of_mem_add h.ordered hf with ⟨hf, hne⟩ | ⟨e, he, hline, rfl⟩ | ⟨rfl, hall⟩
    · rw [if_neg (Ne.symm hne), List.append_nil]
      exact h.marks f hf
    · have hsame : e.text = text := by
        have htext' := h.text e he
        rw [hline, htext] at htext'
        exact (Option.some.inj htext').symm
      show e.marks ++ [l.mark m text] = _
      rw [if_pos hline.symm, List.map_append, ← h.marks e he, ← hsame]
      rfl
    · have hnone : Label.onLine m (l.line m) labels = [] := by
        refine List.filter_eq_nil_iff.mpr fun k hk hline => ?_
        obtain ⟨e, he, heline⟩ := List.mem_map.mp ((h.lines _).mpr ⟨k, hk, rfl⟩)
        exact hall e he (heline.trans (by simpa using hline))
      rw [hnone, if_pos rfl]
      rfl

theorem collect_ofLabels (source : String) (labels : List Label) :
    Collect (.ofSource source) labels (ofLabels (.ofSource source) labels) := by
  induction labels using List.reverseRecOn with
  | nil =>
      exact ⟨List.Pairwise.nil, fun n => ⟨nofun, nofun⟩, nofun, nofun⟩
  | append_singleton labels l ih =>
      obtain ⟨text, htext⟩ := LineMap.exists_lineText?_position source l.span.start
      have hstep : ofLabels (.ofSource source) (labels ++ [l]) =
          Excerpt.add ⟨l.line (.ofSource source), text, [l.mark (.ofSource source) text]⟩
            (ofLabels (.ofSource source) labels) := by
        unfold ofLabels
        rw [List.filterMap_append, List.foldl_append, List.filterMap_cons, ofLabel?_eq htext]
        rfl
      rw [hstep]
      exact ih.add htext

theorem ofLabels_eq_nil {source : String} :
    ofLabels (.ofSource source) labels = [] ↔ labels = [] := by
  constructor
  · intro h
    refine List.eq_nil_iff_forall_not_mem.mpr fun l hl => ?_
    have hline := ((collect_ofLabels source labels).lines _).mpr ⟨l, hl, rfl⟩
    rw [h] at hline
    cases hline
  · rintro rfl
    rfl

end Excerpt

end LamScope
