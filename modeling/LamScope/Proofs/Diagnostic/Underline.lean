import LamScope.Proofs.Diagnostic.Marks
import Mathlib.Data.List.Infix

/-!
# Rows of marks

A secondary mark hides a primary one where both fall. Main statement: if the labels beside a
primary one are apart from it, then the text shows the line that the primary label starts on, and
under it a row of marks with a caret in the column where the label starts.
-/
namespace LamScope

open Text

/-- The ends are places of the text, in order. -/
structure Span.InText (cs : List Char) (a : Span) : Prop where
  start : Boundary cs a.start
  stop : Boundary cs a.stop
  le : a.start ≤ a.stop

/-- Neither is empty, and one ends before the other starts. -/
structure Span.Apart (a b : Span) : Prop where
  left : a.start < a.stop
  right : b.start < b.stop
  apart : a.stop ≤ b.start ∨ b.stop ≤ a.start

theorem Span.Apart.symm {a b : Span} (h : a.Apart b) : b.Apart a := ⟨h.right, h.left, h.apart.symm⟩

/-- A primary label, and secondary ones that are apart from it. -/
structure Label.Foremost (cs : List Char) (l : Label) (others : List Label) : Prop where
  role : l.role = .primary
  inText : l.span.InText cs
  others : ∀ s ∈ others, s.role = .secondary ∧ s.span.InText cs ∧ l.span.Apart s.span

theorem Span.InText.inside {cs : List Char} {a : Span} (h : a.InText cs) : a.Inside cs :=
  ⟨h.start.le, h.stop.le⟩

section
variable {source : String} {l s : Label} {ss : List Label} {text : List Char}

/-- A label that is apart from another on the same line leaves the start of that free. -/
theorem Label.not_marks_of_apart (hsize : byteLength source.toList < UInt32.size - 1)
    (hl : l.span.InText source.toList) (hs : s.span.InText source.toList)
    (hapart : l.span.Apart s.span) (hline : s.line (.ofSource source) = l.line (.ofSource source)) :
    ¬ s.Marks (.ofSource source) text (l.column (.ofSource source) - 1) := by
  have hleft := hapart.left
  have hright := hapart.right
  have hpos := Label.column_pos hsize hl.inside
  unfold Label.Marks Label.stop
  unfold Label.line Label.column at *
  rcases hapart.apart with hle | hle
  · have hcolumn := LineMap.column_add hsize hl.start hs.start (hl.le.trans hle) hline.symm
    omega
  · have hlines : ((LineMap.ofSource source).position s.span.stop).line =
        ((LineMap.ofSource source).position s.span.start).line :=
      Nat.le_antisymm (hline ▸ LineMap.line_mono (by omega) hs.stop hl.start hle)
        (LineMap.line_mono (by omega) hs.start hs.stop hs.le)
    have hend := LineMap.column_add hsize hs.start hs.stop hs.le hlines.symm
    have hcolumn := LineMap.column_add hsize hs.stop hl.start hle (hlines.trans hline)
    rw [if_pos hlines]
    omega

/-- A label that is apart from the others keeps its first caret. -/
theorem Excerpt.exists_mem_ofLabels (hsize : byteLength source.toList < UInt32.size - 1)
    (h : l.Foremost source.toList ss) :
    ∃ e ∈ ofLabels (.ofSource source) (l :: ss), e.line = l.line (.ofSource source) ∧
      e.row[l.column (.ofSource source) - 1]? = some '^' := by
  have hcollect := collect_ofLabels source (l :: ss)
  have hlabels : ∀ k ∈ l :: ss, k.span.Inside source.toList :=
    List.forall_mem_cons.mpr ⟨h.inText.inside, fun s hs => (h.others s hs).2.1.inside⟩
  obtain ⟨e, he, hline⟩ := List.mem_map.mp ((hcollect.lines _).mpr ⟨l, List.mem_cons_self, rfl⟩)
  have hmem : l ∈ Label.onLine (.ofSource source) e.line (l :: ss) :=
    Label.mem_onLine.mpr ⟨List.mem_cons_self, hline.symm⟩
  have hstart : l.Marks (.ofSource source) e.text (l.column (.ofSource source) - 1) :=
    .inl (Nat.sub_add_cancel (Label.column_pos hsize h.inText.inside))
  refine ⟨e, he, hline, (hcollect.marked hsize hlabels he).caret _ l hmem hstart ?_⟩
  intro k hk hmarks
  obtain ⟨hk, hkline⟩ := Label.mem_onLine.mp hk
  rcases List.mem_cons.mp hk with rfl | hk
  · exact h.role
  · obtain ⟨-, hin, hapart⟩ := h.others k hk
    exact (Label.not_marks_of_apart hsize h.inText hin hapart (hkline.trans hline) hmarks).elim

end

namespace Excerpt

variable {e : Excerpt} {es : List Excerpt}

/-- The row of marks beside its margin. -/
def markRow (width : Nat) (e : Excerpt) : Styled :=
  margin width ++ Styled.raw " " ++ styledRow e.row

theorem markRow_infix_rows (width : Nat) (h : e.row ≠ []) : e.markRow width <:+: e.rows width := by
  have hrows : e.markRow width <+: e.markRows width := by
    unfold markRows
    dsimp only
    rw [if_neg (by simpa using h)]
    split
    · exact List.prefix_append _ _
    · rw [List.append_assoc, List.append_assoc]
      exact List.prefix_append _ _
    · rw [List.append_assoc]
      exact List.prefix_append _ _
  exact hrows.isInfix.trans (List.suffix_append _ _).isInfix

theorem rows_infix_block (width : Nat) (h : e ∈ es) : e.rows width <:+: block width es := by
  induction es with
  | nil => cases h
  | cons f es ih =>
      cases es with
      | nil =>
          obtain rfl := List.mem_singleton.mp h
          exact List.infix_rfl
      | cons g es =>
          rw [block]
          rcases List.mem_cons.mp h with rfl | h
          · rw [List.append_assoc]
            exact (List.prefix_append _ _).isInfix
          · exact (ih h).trans (List.suffix_append _ _).isInfix

end Excerpt

namespace Styled

theorem render_infix {t u : Styled} (h : t <:+: u) (inColor : Bool) :
    (render inColor t).toList <:+: (render inColor u).toList := by
  obtain ⟨before, after, rfl⟩ := h
  cases inColor
  · simp [render, plain]
  · simp [render, ansi]

/-- Carets are not lost where styles are switched. -/
theorem caret_mem_reopened {opening cs : List Char} (h : '^' ∈ cs) :
    '^' ∈ reopened opening cs := by
  fun_induction reopened opening cs with
  | case1 rest ih => exact List.mem_append_right _ (ih (by simpa using h))
  | case2 c rest _ ih =>
      rcases List.mem_cons.mp h with rfl | h
      · exact List.mem_cons_self
      · exact List.mem_cons_of_mem c (ih h)
  | case3 => cases h

theorem caret_mem_render {t : Styled} (h : '^' ∈ t.plain) (inColor : Bool) :
    '^' ∈ (render inColor t).toList := by
  cases inColor
  · simpa [render] using h
  · obtain ⟨chunk, hchunk, hcaret⟩ := List.mem_flatMap.mp h
    have hansi : '^' ∈ t.ansi := by
      refine List.mem_flatMap.mpr ⟨chunk, hchunk, ?_⟩
      unfold Chunk.ansi
      split
      · exact hcaret
      · exact List.mem_append_left _ (List.mem_append_right _ (caret_mem_reopened hcaret))
    simpa [render] using hansi

end Styled

/-- The text shows a source line and under it a row of marks, in which there is a caret at the
given place, written with control sequences or without. -/
structure Styled.Underlines (t : Styled) (p : Position) (e : Excerpt) (width : Nat) : Prop where
  line : e.line = p.line
  caret : e.row[p.column - 1]? = some '^'
  under : e.markRow width <:+: e.rows width
  shown : e.rows width <:+: t
  rendered : ∀ inColor, '^' ∈ (render inColor (e.markRow width)).toList ∧
    (render inColor (e.markRow width)).toList <:+: (render inColor t).toList

theorem Diagnostic.exists_block_infix_places (m : LineMap) (file : String) (primary : Span)
    (d : Diagnostic) (es : List Excerpt) :
    ∃ width, Excerpt.block width es <:+: d.places m file primary es := by
  unfold places
  dsimp only
  rw [List.append_assoc]
  exact ⟨_, ⟨_, _, List.append_assoc _ _ _⟩⟩

/-- A diagnostic is shown with its place. -/
theorem Diagnostic.underlines_styled {source : String} {d : Diagnostic} {l : Label}
    {others : List Label} (hsize : byteLength source.toList < UInt32.size - 1)
    (hlabels : d.labels = l :: others) (h : l.Foremost source.toList others) (file : String) :
    ∃ e width, (d.styled (.ofSource source) file).Underlines
      ((LineMap.ofSource source).position l.span.start) e width := by
  obtain ⟨e, he, hline, hcaret⟩ := Excerpt.exists_mem_ofLabels hsize h
  have hmem : '^' ∈ e.row := List.mem_of_getElem? hcaret
  have hprimary : d.primarySpan? = some l.span := by
    simp [primarySpan?, hlabels, h.role]
  have hexcerpts : (Excerpt.ofLabels (.ofSource source) (l :: others)).isEmpty = false := by
    simpa using List.ne_nil_of_mem he
  obtain ⟨width, hblock⟩ := d.exists_block_infix_places (.ofSource source) file l.span
    (Excerpt.ofLabels (.ofSource source) (l :: others))
  have hunder := Excerpt.markRow_infix_rows width (List.ne_nil_of_mem hmem)
  have hshown : e.rows width <:+: d.styled (.ofSource source) file := by
    refine (Excerpt.rows_infix_block width he).trans (hblock.trans ?_)
    unfold styled
    rw [hprimary, hlabels]
    dsimp only
    rw [hexcerpts]
    exact ⟨_, _, rfl⟩
  refine ⟨e, width, hline, hcaret, hunder, hshown, fun inColor => ⟨?_, ?_⟩⟩
  · have hrow : Excerpt.styledRow e.row <:+: e.markRow width := (List.suffix_append _ _).isInfix
    refine (Styled.render_infix hrow inColor).subset (Styled.caret_mem_render ?_ inColor)
    rwa [Excerpt.plain_styledRow]
  · exact Styled.render_infix (hunder.trans hshown) inColor

end LamScope
