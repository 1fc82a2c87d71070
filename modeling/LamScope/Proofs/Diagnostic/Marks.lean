import LamScope.Proofs.Diagnostic.Layout
import Mathlib.Data.List.DropRight

/-!
# Marks of labels

A label marks columns under the line that it starts on. Main statement: if all labels lie in a
text whose columns fit 32 bits, then each line on which labels start is shown with one row under it
that has a dash where a secondary label marks a column and a caret where only primary ones do, and
with the messages of those labels, each of them once.
-/
namespace LamScope

open Text

namespace Mark

variable {a b : Mark} {marks : List Mark} {row : List Char} {i : Nat}

/-- The mark falls on the column with this index. -/
def Covers (a : Mark) (i : Nat) : Prop := 0 < a.start ∧ a.start - 1 ≤ i ∧ i < a.stop - 1

theorem length_draw (row : List Char) (a : Mark) : (draw row a).length = row.length :=
  List.length_mapIdx

theorem getElem?_draw_of_covers (h : a.Covers i) (hi : i < row.length) :
    (draw row a)[i]? = some (sign a.role) := by
  rw [draw, List.getElem?_mapIdx, List.getElem?_eq_getElem hi, Option.map_some]
  exact congrArg some (if_pos h)

theorem getElem?_draw_of_not_covers (h : ¬ a.Covers i) : (draw row a)[i]? = row[i]? := by
  rw [draw, List.getElem?_mapIdx]
  cases row[i]? with
  | none => rfl
  | some c => exact congrArg some (if_neg h)

theorem getElem?_foldl_draw (h : ∀ a ∈ marks, ¬ a.Covers i) :
    (marks.foldl draw row)[i]? = row[i]? := by
  induction marks generalizing row with
  | nil => rfl
  | cons a marks ih =>
      obtain ⟨ha, hmarks⟩ := List.forall_mem_cons.mp h
      rw [List.foldl_cons, ih hmarks, getElem?_draw_of_not_covers ha]

theorem insert_perm (a : Mark) (marks : List Mark) : (insert a marks).Perm (a :: marks) := by
  induction marks with
  | nil => rfl
  | cons b marks ih =>
      rw [insert]
      split
      · rfl
      · exact (ih.cons b).trans (List.Perm.swap a b marks)

theorem sort_perm (marks : List Mark) : (sort marks).Perm marks := by
  induction marks with
  | nil => rfl
  | cons a marks ih => exact (insert_perm a (sort marks)).trans (ih.cons a)

/-- After a secondary mark all marks are secondary. -/
def RolesInOrder (marks : List Mark) : Prop :=
  marks.Pairwise fun a b => a.role = .secondary → b.role = .secondary

theorem rolesInOrder_insert (h : RolesInOrder marks) : RolesInOrder (insert a marks) := by
  induction marks with
  | nil => exact List.pairwise_singleton _ _
  | cons b marks ih =>
      obtain ⟨hb, hmarks⟩ := List.pairwise_cons.mp h
      have hcases : a.before b = true → a.role = .secondary → b.role = .secondary := by
        unfold before
        cases a.role <;> cases b.role <;> simp
      have hcases' : ¬ a.before b = true → b.role = .secondary → a.role = .secondary := by
        unfold before
        cases a.role <;> cases b.role <;> simp
      rw [insert]
      split
      · rename_i hbefore
        refine List.pairwise_cons.mpr ⟨List.forall_mem_cons.mpr ⟨hcases hbefore, ?_⟩, h⟩
        exact fun c hc ha => hb c hc (hcases hbefore ha)
      · rename_i hbefore
        refine List.pairwise_cons.mpr ⟨fun c hc => ?_, ih hmarks⟩
        rcases List.mem_cons.mp ((insert_perm a marks).mem_iff.mp hc) with rfl | hc
        · exact hcases' hbefore
        · exact hb c hc

theorem rolesInOrder_sort (marks : List Mark) : RolesInOrder (sort marks) := by
  induction marks with
  | nil => exact List.Pairwise.nil
  | cons a marks ih => exact rolesInOrder_insert ih

/-- Of the marks on a column the last one drawn is seen, and that is a secondary one if there is
any. -/
theorem exists_getElem?_foldl_draw (h : RolesInOrder marks) (ha : a ∈ marks) (hcovers : a.Covers i)
    (hi : i < row.length) :
    ∃ b ∈ marks, b.Covers i ∧ (marks.foldl draw row)[i]? = some (sign b.role) ∧
      ∀ c ∈ marks, c.Covers i → c.role = .secondary → b.role = .secondary := by
  induction marks generalizing a row with
  | nil => cases ha
  | cons c marks ih =>
      obtain ⟨hc, hmarks⟩ := List.pairwise_cons.mp h
      rw [List.foldl_cons]
      by_cases htail : ∃ a ∈ marks, a.Covers i
      · obtain ⟨a, ha, hcovers⟩ := htail
        have hi : i < (draw row c).length := by rwa [length_draw]
        obtain ⟨b, hb, hcovers, hsign, hsecond⟩ := ih hmarks ha hcovers hi
        refine ⟨b, List.mem_cons_of_mem c hb, hcovers, hsign, ?_⟩
        exact List.forall_mem_cons.mpr ⟨fun _ => hc b hb, hsecond⟩
      · have hnone : ∀ a ∈ marks, ¬ a.Covers i := fun a ha hcovers => htail ⟨a, ha, hcovers⟩
        obtain rfl : a = c := (List.mem_cons.mp ha).resolve_right fun ha => hnone a ha hcovers
        refine ⟨a, List.mem_cons_self, hcovers, ?_, ?_⟩
        · rw [getElem?_foldl_draw hnone, getElem?_draw_of_covers hcovers hi]
        · exact List.forall_mem_cons.mpr ⟨fun _ => id, fun b hb hb' => (hnone b hb hb').elim⟩

end Mark

namespace Excerpt

variable {e : Excerpt} {i : Nat}

/-- The row of marks before blanks at its end are cut off. -/
def drawn (e : Excerpt) : List Char :=
  (Mark.sort e.marks).foldl Mark.draw (List.replicate (byteLength e.text + overhang) ' ')

theorem row_eq (e : Excerpt) : e.row = e.drawn.rdropWhile (· == ' ') := rfl

theorem row_prefix (e : Excerpt) : e.row <+: e.drawn := List.rdropWhile_prefix _ _

theorem getLast?_row (e : Excerpt) : e.row.getLast? ≠ some ' ' := by
  intro h
  have hne : e.row ≠ [] := by
    intro hnil
    rw [hnil] at h
    cases h
  have hlast := List.rdropWhile_last_not (· == ' ') e.drawn hne
  rw [List.getLast?_eq_some_getLast hne] at h
  have hblank : e.row.getLast hne = ' ' := Option.some.inj h
  exact hlast (beq_iff_eq.mpr hblank)

/-- Blanks are cut off and nothing else. -/
theorem getElem?_row_of_drawn {c : Char} (h : e.drawn[i]? = some c) (hc : c ≠ ' ') :
    e.row[i]? = some c := by
  rw [row_eq]
  generalize e.drawn = row at h
  induction row using List.reverseRecOn with
  | nil => cases h
  | append_singleton row d ih =>
      by_cases hd : d = ' '
      · rw [List.rdropWhile_concat_pos _ _ _ (by simpa using hd)]
        refine ih ?_
        rw [List.getElem?_append] at h
        split at h
        · exact h
        · obtain rfl : c = d := by simpa using List.mem_of_getElem? h
          exact (hc hd).elim
      · rwa [List.rdropWhile_concat_neg _ _ _ (by simpa using hd)]

theorem drawn_of_row (hi : i < e.row.length) : e.row[i]? = e.drawn[i]? := by
  rw [List.getElem?_eq_getElem hi, (e.row_prefix).getElem hi, List.getElem?_eq_getElem]

theorem length_drawn (e : Excerpt) : e.drawn.length = byteLength e.text + overhang := by
  have hlength (marks : List Mark) (row : List Char) :
      (marks.foldl Mark.draw row).length = row.length := by
    induction marks generalizing row with
    | nil => rfl
    | cons a marks ih => rw [List.foldl_cons, ih, Mark.length_draw]
  rw [drawn, hlength, List.length_replicate]

variable {a : Mark}

/-- What is seen on a column inside the row that has a mark. -/
theorem exists_getElem?_row (ha : a ∈ e.marks) (hcovers : a.Covers i)
    (hi : i < byteLength e.text + overhang) :
    ∃ b ∈ e.marks, b.Covers i ∧ e.row[i]? = some (Mark.sign b.role) ∧
      ∀ c ∈ e.marks, c.Covers i → c.role = .secondary → b.role = .secondary := by
  have hsort {c : Mark} : c ∈ Mark.sort e.marks ↔ c ∈ e.marks := (Mark.sort_perm e.marks).mem_iff
  have hlength : i < (List.replicate (byteLength e.text + overhang) ' ').length := by
    rwa [List.length_replicate]
  obtain ⟨b, hb, hcovers, hsign, hsecond⟩ := Mark.exists_getElem?_foldl_draw
    (Mark.rolesInOrder_sort e.marks) (hsort.mpr ha) hcovers hlength
  refine ⟨b, hsort.mp hb, hcovers, getElem?_row_of_drawn hsign ?_, fun c hc => hsecond c ?_⟩
  · cases b.role <;> decide
  · exact hsort.mpr hc

theorem getElem?_row_of_secondary (ha : a ∈ e.marks) (hcovers : a.Covers i)
    (hi : i < byteLength e.text + overhang) (hrole : a.role = .secondary) :
    e.row[i]? = some '-' := by
  obtain ⟨b, -, -, hsign, hsecond⟩ := exists_getElem?_row ha hcovers hi
  rw [hsign, hsecond a ha hcovers hrole]
  rfl

theorem getElem?_row_of_primary (ha : a ∈ e.marks) (hcovers : a.Covers i)
    (hi : i < byteLength e.text + overhang)
    (hroles : ∀ c ∈ e.marks, c.Covers i → c.role = .primary) : e.row[i]? = some '^' := by
  obtain ⟨b, hb, hcovers, hsign, -⟩ := exists_getElem?_row ha hcovers hi
  rw [hsign, hroles b hb hcovers]
  rfl

theorem getElem?_row_of_not_covers (hi : i < e.row.length) (h : ∀ a ∈ e.marks, ¬ a.Covers i) :
    e.row[i]? = some ' ' := by
  have hlength := e.row_prefix.length_le
  rw [length_drawn] at hlength
  rw [drawn_of_row hi, drawn, Mark.getElem?_foldl_draw fun a ha => h a
    ((Mark.sort_perm e.marks).mem_iff.mp ha)]
  exact List.getElem?_replicate_of_lt (Nat.lt_of_lt_of_le hi hlength)

end Excerpt

namespace Label

/-- The label marks the column with this index: one from its start to its end, or to the end of the
text of its line if it ends on another line. Where it starts it marks in any case. -/
def Marks (m : LineMap) (text : List Char) (l : Label) (i : Nat) : Prop :=
  i + 1 = l.column m ∨ l.column m ≤ i + 1 ∧ i + 1 < l.stop m text

/-- The message of a label with the column that it starts on. -/
def note? (m : LineMap) (l : Label) : Option (Nat × Role × String) :=
  l.message.map fun s => (l.column m, l.role, s)

variable {m : LineMap} {text : List Char} {l : Label} {i : Nat}

theorem covers_mark (hpos : 0 < l.column m) :
    (l.mark m text).Covers i ↔ l.Marks m text i := by
  unfold Mark.Covers Marks mark
  simp only
  omega

end Label

/-- Neither end is past the end of the text. The ends may be in any order. -/
def Span.Inside (cs : List Char) (a : Span) : Prop :=
  a.start ≤ byteLength cs ∧ a.stop ≤ byteLength cs

instance (cs : List Char) (a : Span) : Decidable (a.Inside cs) :=
  inferInstanceAs (Decidable (_ ∧ _))

theorem Label.column_pos {source : String} {l : Label}
    (hsize : byteLength source.toList < UInt32.size - 1) (hl : l.span.Inside source.toList) :
    0 < l.column (.ofSource source) :=
  LineMap.column_pos (Nat.lt_of_le_of_lt hl.1 hsize) source

/-- What labels in the text mark is inside the row. -/
theorem Label.Marks.lt {source : String} {text : List Char} {l : Label} {i : Nat}
    (h : l.Marks (.ofSource source) text i) (hsize : byteLength source.toList < UInt32.size)
    (hl : l.span.Inside source.toList)
    (htext : (LineMap.ofSource source).lineText? (l.line (.ofSource source)) = some text) :
    i + 1 ≤ byteLength text + 2 := by
  have hbound {n : Nat} (hn : n ≤ byteLength source.toList)
      (hline : ((LineMap.ofSource source).position n).line = l.line (.ofSource source)) :
      ((LineMap.ofSource source).position n).column ≤ byteLength text + 2 := by
    obtain ⟨text', htext', hcolumn⟩ := LineMap.exists_lineText? hsize hn
    rw [hline, htext] at htext'
    rwa [Option.some.inj htext']
  have hstart : l.column (.ofSource source) ≤ byteLength text + 2 := hbound hl.1 rfl
  have hstop : l.stop (.ofSource source) text ≤ byteLength text + 2 := by
    unfold Label.stop
    split
    · rename_i hline
      exact hbound hl.2 hline
    · omega
  rcases h with h | ⟨-, h⟩
  · omega
  · omega

/-- A row of marks under the text of a line on which these labels start. -/
structure Row.Marked (m : LineMap) (labels : List Label) (text row : List Char) : Prop where
  dash : ∀ i, ∀ l ∈ labels, l.Marks m text i → l.role = .secondary → row[i]? = some '-'
  caret : ∀ i, ∀ l ∈ labels, l.Marks m text i →
    (∀ k ∈ labels, k.Marks m text i → k.role = .primary) → row[i]? = some '^'
  blank : ∀ i < row.length, (∀ l ∈ labels, ¬ l.Marks m text i) → row[i]? = some ' '
  trimmed : row.getLast? ≠ some ' '
  /-- No label marks columns past the end of the row that is drawn on. -/
  inside : ∀ i, ∀ l ∈ labels, l.Marks m text i → i < byteLength text + Excerpt.overhang

namespace Excerpt

variable {source : String} {labels : List Label} {es : List Excerpt} {e : Excerpt}

section
variable {m : LineMap} (h : Collect m labels es) (he : e ∈ es)
include h he

theorem Collect.exists_mark {l : Label} {i : Nat} (hl : l ∈ Label.onLine m e.line labels)
    (hpos : 0 < l.column m) (hmarks : l.Marks m e.text i) :
    ∃ a ∈ e.marks, a.Covers i ∧ a.role = l.role := by
  rw [h.marks e he]
  exact ⟨l.mark m e.text, List.mem_map_of_mem hl, (Label.covers_mark hpos).mpr hmarks, rfl⟩

theorem Collect.exists_label {a : Mark} {i : Nat} (ha : a ∈ e.marks) (hcovers : a.Covers i) :
    ∃ l ∈ Label.onLine m e.line labels, l.Marks m e.text i ∧ a.role = l.role := by
  rw [h.marks e he] at ha
  obtain ⟨l, hl, rfl⟩ := List.mem_map.mp ha
  exact ⟨l, hl, (Label.covers_mark hcovers.1).mp hcovers, rfl⟩

/-- All messages of the labels on a line, in the order in which they are shown. -/
theorem Collect.messages_perm :
    e.messages.reverse.Perm ((Label.onLine m e.line labels).filterMap (Label.note? m)) := by
  have hperm := (Mark.sort_perm e.marks).filterMap fun a =>
    a.message.map fun s => (a.start, a.role, s)
  rw [h.marks e he, List.filterMap_map] at hperm
  refine e.messages.reverse_perm.trans ?_
  unfold messages
  rw [h.marks e he]
  exact hperm

end

theorem Collect.marked (h : Collect (.ofSource source) labels es)
    (hsize : byteLength source.toList < UInt32.size - 1)
    (hlabels : ∀ l ∈ labels, l.span.Inside source.toList) (he : e ∈ es) :
    Row.Marked (.ofSource source) (Label.onLine (.ofSource source) e.line labels) e.text
      e.row := by
  have hinside : ∀ i, ∀ l ∈ Label.onLine (.ofSource source) e.line labels,
      l.Marks (.ofSource source) e.text i → i < byteLength e.text + overhang := by
    intro i l hl hmarks
    obtain ⟨hmem, hline⟩ := Label.mem_onLine.mp hl
    have hlt := hmarks.lt (by omega) (hlabels l hmem) (hline ▸ h.text e he)
    have hoverhang : 2 < overhang := by decide
    omega
  have hpos {l : Label} (hl : l ∈ Label.onLine (.ofSource source) e.line labels) :
      0 < l.column (.ofSource source) :=
    Label.column_pos hsize (hlabels l (Label.mem_onLine.mp hl).1)
  constructor
  · intro i l hl hmarks hrole
    obtain ⟨a, ha, hcovers, harole⟩ := h.exists_mark he hl (hpos hl) hmarks
    exact getElem?_row_of_secondary ha hcovers (hinside i l hl hmarks) (harole.trans hrole)
  · intro i l hl hmarks hroles
    obtain ⟨a, ha, hcovers, -⟩ := h.exists_mark he hl (hpos hl) hmarks
    refine getElem?_row_of_primary ha hcovers (hinside i l hl hmarks) fun c hc hcovers => ?_
    obtain ⟨k, hk, hmarks, hrole⟩ := h.exists_label he hc hcovers
    exact hrole.trans (hroles k hk hmarks)
  · intro i hi hnone
    refine getElem?_row_of_not_covers hi fun a ha hcovers => ?_
    obtain ⟨l, hl, hmarks, -⟩ := h.exists_label he ha hcovers
    exact hnone l hl hmarks
  · exact e.getLast?_row
  · exact hinside

/-- A line on which labels start has a row of marks. -/
theorem Collect.beneath_eq (h : Collect (.ofSource source) labels es)
    (hsize : byteLength source.toList < UInt32.size - 1)
    (hlabels : ∀ l ∈ labels, l.span.Inside source.toList) (he : e ∈ es) :
    e.beneath = Row.under e.row e.messages.reverse := by
  obtain ⟨l, hl, hline⟩ := (h.lines e.line).mp (List.mem_map_of_mem he)
  have hmarked := h.marked hsize hlabels he
  have hmem : l ∈ Label.onLine (.ofSource source) e.line labels := Label.mem_onLine.mpr ⟨hl, hline⟩
  have hpos := Label.column_pos hsize (hlabels l hl)
  have hstart : l.Marks (.ofSource source) e.text (l.column (.ofSource source) - 1) :=
    .inl (Nat.sub_add_cancel hpos)
  obtain ⟨a, ha, hcovers, -⟩ := h.exists_mark he hmem hpos hstart
  obtain ⟨b, -, -, hsign, -⟩ := exists_getElem?_row ha hcovers (hmarked.inside _ l hmem hstart)
  refine if_neg fun hempty => ?_
  rw [List.isEmpty_iff.mp hempty] at hsign
  cases hsign

end Excerpt

/-- The uncoloured text shows the labels of a diagnostic. -/
structure Diagnostic.Marked (m : LineMap) (file : String) (d : Diagnostic) (rows : List Row) :
    Prop where
  text : (Styled.render false (d.styled m file)).toList =
    rows.flatMap (Row.plain (Row.width rows))
  ordered : ((Row.sources rows).map Prod.fst).Pairwise (· < ·)
  /-- The lines on which labels start are shown. -/
  lines : ∀ l ∈ d.labels, ∃ text, .source (l.line m) text ∈ rows
  /-- Under a line are the marks and the messages of the labels that start on it. -/
  under : ∀ n text, .source n text ∈ rows → m.lineText? n = some text ∧
    ∃ row messages, Row.Beneath rows n text (Row.under row messages) ∧
      Row.Marked m (Label.onLine m n d.labels) text row ∧
      messages.Perm ((Label.onLine m n d.labels).filterMap (Label.note? m))
  /-- There are marks and messages only under the lines. -/
  only : ∀ r ∈ rows, r.isUnder = true →
    ∃ n text under, Row.Beneath rows n text under ∧ r ∈ under

/-- Marks that start at no column leave no row. -/
theorem Excerpt.row_eq_nil {e : Excerpt} (h : ∀ a ∈ e.marks, a.start = 0) : e.row = [] := by
  refine List.eq_nil_iff_forall_not_mem.mpr fun c hc => ?_
  have hall : ∀ i < e.row.length, e.row[i]? = some ' ' := fun i hi =>
    getElem?_row_of_not_covers hi fun a ha hcovers => Nat.ne_of_gt hcovers.1 (h a ha)
  have hpos := List.length_pos_of_mem hc
  refine e.getLast?_row ?_
  rw [List.getLast?_eq_getElem?]
  exact hall _ (by omega)

/-- In a text of one line a label at the last offset of all is not shown. -/
theorem Diagnostic.plain_of_oneLine {source : String} {d : Diagnostic} {l : Label}
    (hline : '\n' ∉ source.toList) (hlabels : d.labels = [l])
    (hspan : l.span = ⟨UInt32.size - 1, UInt32.size - 1⟩) (file : String) :
    (Styled.render false (d.styled (.ofSource source) file)).toList =
      (.title d.severity d.code d.message :: .place file ⟨1, 0⟩ :: .empty ::
        .source 1 (LineMap.withoutReturn source.toList) ::
        (d.lastMargin ++ d.remarkRows)).flatMap (Row.plain 2) := by
  have hposition := LineMap.position_of_oneLine hline
  have hlabel : l.line (.ofSource source) = 1 := by rw [Label.line, hspan, hposition]
  have htext : (LineMap.ofSource source).lineText? (l.line (.ofSource source)) =
      some (LineMap.withoutReturn source.toList) := by
    rw [hlabel, LineMap.lineText?_of_oneLine hline]
  have hexcerpts := Excerpt.ofLabels_singleton htext
  have hrow : Excerpt.row ⟨l.line (.ofSource source), LineMap.withoutReturn source.toList,
      [l.mark (.ofSource source) (LineMap.withoutReturn source.toList)]⟩ = [] := by
    refine Excerpt.row_eq_nil (List.forall_mem_singleton.mpr ?_)
    rw [Label.mark, Label.column, hspan, hposition]
  have hwidth : Row.width (d.rows (.ofSource source) file) = 2 := by
    rw [Row.width, sources_rows, hlabels, hexcerpts, hlabel]
    show max (toString 1).length 2 = 2
    decide +kernel
  rw [render_styled_plain, hwidth, rows_of_singleton hlabels hexcerpts, Excerpt.shown,
    Excerpt.beneath, hrow, hlabel, hspan, hposition]
  rfl

section
variable {source : String} {d : Diagnostic} {n : Nat}

/-- What is seen of a line of blanks with a label at its end. -/
theorem Diagnostic.plain_of_blanks (hn : n + 1 = UInt32.size)
    (htext : source.toList = List.replicate n ' ')
    (hd : d = ⟨.error, none, "m", [.primary ⟨n, n⟩ "here"], [], none⟩) :
    (Styled.render false (d.styled (.ofSource source) "a.lam")).toList =
        "error: m\n  --> a.lam:1:0\n    |\n  1 | ".toList ++ source.toList ++ ['\n'] := by
  have hblank {c : Char} (hc : c ∈ source.toList) : c = ' ' := by
    rw [htext] at hc
    exact List.eq_of_mem_replicate hc
  have hline : '\n' ∉ source.toList := fun hc => absurd (hblank hc) (by decide)
  have hshown : LineMap.withoutReturn source.toList = source.toList :=
    if_neg fun hlast => absurd (hblank (List.mem_of_getLast? hlast)) (by decide)
  have hlast : n = UInt32.size - 1 := by omega
  have hplain := Diagnostic.plain_of_oneLine (d := d) hline (by rw [hd]) (by rw [← hlast]; rfl)
    "a.lam"
  have hhead : Row.plain 2 (.title .error none "m") ++ Row.plain 2 (.place "a.lam" ⟨1, 0⟩) ++
      Row.plain 2 .empty ++ (Text.padLeft 3 (toString 1) ++ " | ").toList =
        "error: m\n  --> a.lam:1:0\n    |\n  1 | ".toList := by
    decide +kernel
  rw [hplain, hshown, hd, ← hhead]
  simp [Row.plain, Diagnostic.lastMargin, Diagnostic.remarkRows]

theorem Diagnostic.not_marked_of_blanks (hn : n + 1 = UInt32.size)
    (htext : source.toList = List.replicate n ' ')
    (hd : d = ⟨.error, none, "m", [.primary ⟨n, n⟩ "here"], [], none⟩) (rows : List Row) :
    ¬ d.Marked (.ofSource source) "a.lam" rows := by
  intro hmarked
  have hmem : 'h' ∈ (Styled.render false (d.styled (.ofSource source) "a.lam")).toList := by
    have hlabels : d.labels = [.primary ⟨n, n⟩ "here"] := by rw [hd]
    obtain ⟨text, hsource⟩ := hmarked.lines (.primary ⟨n, n⟩ "here") (by simp [hlabels])
    obtain ⟨-, row, messages, hbeneath, -, hmessages⟩ := hmarked.under _ text hsource
    rw [hlabels, Label.onLine, List.filter_cons_of_pos (by simp)] at hmessages
    have honly : messages = [(_, .primary, "here")] := List.perm_singleton.mp hmessages
    obtain ⟨above, below, hall, -, -⟩ := hbeneath
    have hmem : Row.marks row (some (.primary, "here")) ∈ rows := by
      rw [hall, honly]
      simp [Row.under]
    rw [hmarked.text]
    refine List.mem_flatMap.mpr ⟨_, hmem, ?_⟩
    simp [Row.plain]
  rw [Diagnostic.plain_of_blanks hn htext hd, htext] at hmem
  simp only [List.mem_append, List.mem_replicate] at hmem
  rcases hmem with (hmem | hmem) | hmem
  · exact absurd hmem (by decide +kernel)
  · exact absurd hmem.2 (by decide)
  · exact absurd hmem (by decide)

end

end LamScope
