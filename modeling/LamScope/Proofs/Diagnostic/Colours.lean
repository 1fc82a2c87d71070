import LamScope.Proofs.Diagnostic.Marks
import LamScope.Proofs.Text.Sequences

/-!
# Colours of diagnostics

Colours add nothing to what is read. Main statement: if there are no escape characters in the
source text, in the name of the file and in the texts of the diagnostics, then the text of the
diagnostics in colours without its control sequences is their text without colours.
-/
namespace LamScope

namespace Row

variable {r : Row} {s : List Char}

/-- The texts in a row, apart from its margin and from numbers. -/
def texts : Row → List (List Char)
  | title _ code s => s.toList :: code.toList.map String.toList
  | place file _ => [file.toList]
  | source _ text => [text]
  | marks row beside => row :: beside.toList.map fun p => p.2.toList
  | message _ _ s => [s.toList]
  | remark kind s => [kind.toList, s.toList]
  | empty | gap => []

theorem escape_not_mem_toDigits (n : Nat) : '\x1b' ∉ Nat.toDigits 10 n := by
  intro h
  have hdigit := Nat.isDigit_of_mem_toDigits (by decide) (by decide) h
  exact absurd hdigit (by decide)

theorem escape_not_mem_spaces (n : Nat) : '\x1b' ∉ (Text.spaces n).toList := by
  simp [Text.spaces]

theorem escape_not_mem_gutter (width : Nat) : '\x1b' ∉ gutter width := by
  simp [gutter, escape_not_mem_spaces]

/-- All escape characters of a row come with its texts. -/
theorem escape_not_mem_plain (h : ∀ s ∈ r.texts, '\x1b' ∉ s) (width : Nat) :
    '\x1b' ∉ r.plain width := by
  cases r with
  | title severity code s =>
      cases severity <;> cases code <;> simp_all [texts, plain, Severity.word]
  | place file p => simp_all [texts, plain, escape_not_mem_toDigits]
  | empty => simp [plain, escape_not_mem_spaces]
  | source line text =>
      simp_all [texts, plain, Text.padLeft, escape_not_mem_spaces, escape_not_mem_toDigits]
  | gap => simp [plain, escape_not_mem_spaces]
  | marks row beside => cases beside <;> simp_all [texts, plain, escape_not_mem_gutter]
  | message column role s => simp_all [texts, plain, escape_not_mem_gutter, escape_not_mem_spaces]
  | remark kind s => simp_all [texts, plain]

theorem mem_texts_under {row : List Char} {messages : List (Nat × Role × String)}
    (hr : r ∈ under row messages) (hs : s ∈ r.texts) :
    s = row ∨ ∃ p ∈ messages, s = p.2.2.toList := by
  unfold under at hr
  split at hr
  · obtain rfl := List.mem_singleton.mp hr
    simpa [texts] using hs
  · rcases List.mem_cons.mp hr with rfl | hr
    · exact .inl (by simpa [texts] using hs)
    · obtain ⟨p, hp, rfl⟩ := List.mem_map.mp hr
      exact .inr ⟨p, hp, by simpa [texts] using hs⟩

end Row

namespace Diagnostic

/-- The texts that a diagnostic has. -/
def texts (d : Diagnostic) : List String :=
  d.message :: d.code.toList ++ d.labels.filterMap Label.message ++ d.notes ++ d.help.toList

theorem mem_texts {d : Diagnostic} {s : String} : s ∈ d.texts ↔
    s = d.message ∨ d.code = some s ∨ (∃ l ∈ d.labels, l.message = some s) ∨ s ∈ d.notes ∨
      d.help = some s := by
  simp [texts]

/-- What is shown of a diagnostic: the texts that it has, the name of the file, parts of the source
text, marks, and words that tell what a remark is. -/
inductive Shown (source file : String) (d : Diagnostic) : List Char → Prop
  | text {s : String} : s ∈ d.texts → Shown source file d s.toList
  | file : Shown source file d file.toList
  | source {cs : List Char} : cs ⊆ source.toList → Shown source file d cs
  | marks {cs : List Char} :
      (∀ c ∈ cs, c = ' ' ∨ ∃ role, c = Mark.sign role) → Shown source file d cs
  | word {s : String} : s = "note" ∨ s = "help" → Shown source file d s.toList

end Diagnostic

theorem Mark.mem_foldl_draw {marks : List Mark} {row : List Char} {c : Char}
    (h : c ∈ marks.foldl draw row) : c ∈ row ∨ ∃ role, c = sign role := by
  induction marks generalizing row with
  | nil => exact .inl h
  | cons a marks ih =>
      rcases ih h with h | h
      · obtain ⟨i, hi, heq⟩ := List.mem_mapIdx.mp h
        split at heq
        · exact .inr ⟨a.role, heq.symm⟩
        · exact .inl (heq ▸ List.getElem_mem hi)
      · exact .inr h

namespace Excerpt

variable {source : String} {labels : List Label} {es : List Excerpt} {e : Excerpt}

theorem mem_row {c : Char} (h : c ∈ e.row) : c = ' ' ∨ ∃ role, c = Mark.sign role := by
  rcases Mark.mem_foldl_draw (e.row_prefix.subset h) with h | h
  · exact .inl (List.mem_replicate.mp h).2
  · exact .inr h

theorem mem_messages {p : Nat × Role × String} (h : p ∈ e.messages) :
    ∃ a ∈ e.marks, a.message = some p.2.2 := by
  obtain ⟨a, ha, hp⟩ := List.mem_filterMap.mp h
  obtain ⟨s, hs, rfl⟩ := Option.map_eq_some_iff.mp hp
  exact ⟨a, (Mark.sort_perm e.marks).mem_iff.mp ha, hs⟩

/-- The text of an excerpt is part of a line of the source text. -/
theorem Collect.text_subset (h : Collect (.ofSource source) labels es) (he : e ∈ es) :
    e.text ⊆ source.toList := by
  obtain ⟨l, -, hline⟩ := (h.lines e.line).mp (List.mem_map_of_mem he)
  obtain ⟨before, line, after, honline⟩ :=
    LineMap.exists_onLine source.toList (LineMap.clip l.span.start)
  have htext := h.text e he
  rw [← hline, Label.line, honline.position_eq, honline.lineText?_eq] at htext
  rw [← Option.some.inj htext, honline.text]
  intro c hc
  have hmem : c ∈ line := by
    unfold LineMap.withoutReturn at hc
    split at hc
    · exact List.mem_of_mem_dropLast hc
    · exact hc
  simp [hmem]

theorem Collect.message_mem (h : Collect (.ofSource source) labels es) (he : e ∈ es)
    {p : Nat × Role × String} (hp : p ∈ e.messages) : ∃ l ∈ labels, l.message = some p.2.2 := by
  obtain ⟨a, ha, hmessage⟩ := mem_messages hp
  rw [h.marks e he] at ha
  obtain ⟨l, hl, rfl⟩ := List.mem_map.mp ha
  exact ⟨l, (Label.mem_onLine.mp hl).1, hmessage⟩

end Excerpt

namespace Diagnostic

variable {source file : String} {d : Diagnostic} {r : Row} {s : List Char}

theorem shown_of_mem_excerpt {e : Excerpt} (he : e ∈ Excerpt.ofLabels (.ofSource source) d.labels)
    (hr : r ∈ e.shown) (hs : s ∈ r.texts) : Shown source file d s := by
  have hcollect := Excerpt.collect_ofLabels source d.labels
  rcases List.mem_cons.mp hr with rfl | hr
  · obtain rfl := List.mem_singleton.mp hs
    exact .source (hcollect.text_subset he)
  · unfold Excerpt.beneath at hr
    split at hr
    · cases hr
    · rcases Row.mem_texts_under hr hs with rfl | ⟨p, hp, rfl⟩
      · exact .marks fun c => Excerpt.mem_row
      · have hlabel := hcollect.message_mem he (List.mem_reverse.mp hp)
        exact .text (mem_texts.mpr (.inr (.inr (.inl hlabel))))

theorem shown_of_mem_remarkRows (hr : r ∈ d.remarkRows) (hs : s ∈ r.texts) :
    Shown source file d s := by
  rcases List.mem_append.mp hr with hr | hr
  · obtain ⟨note, hnote, rfl⟩ := List.mem_map.mp hr
    rcases List.mem_pair.mp hs with rfl | rfl
    · exact .word (.inl rfl)
    · exact .text (mem_texts.mpr (.inr (.inr (.inr (.inl hnote)))))
  · obtain ⟨help, hhelp, rfl⟩ := List.mem_map.mp hr
    rcases List.mem_pair.mp hs with rfl | rfl
    · exact .word (.inr rfl)
    · exact .text (mem_texts.mpr (.inr (.inr (.inr (.inr (Option.mem_toList.mp hhelp))))))

theorem shown_of_mem_middleRows (hr : r ∈ d.middleRows (.ofSource source) file) (hs : s ∈ r.texts) :
    Shown source file d s := by
  by_cases h : Excerpt.ofLabels (.ofSource source) d.labels = []
  · rw [middleRows_of_eq_nil h] at hr
    cases hr
  · obtain ⟨primary, hprimary⟩ := exists_primarySpan? h
    rw [middleRows_of_ne_nil file hprimary h, placeRows, List.mem_append, List.mem_cons,
      List.mem_cons] at hr
    rcases hr with (rfl | rfl | hr) | hr
    · obtain rfl := List.mem_singleton.mp hs
      exact .file
    · cases hs
    · rcases Excerpt.mem_shownAll hr with rfl | ⟨e, he, hr⟩
      · cases hs
      · exact shown_of_mem_excerpt he hr hs
    · unfold lastMargin at hr
      split at hr
      · cases hr
      · obtain rfl := List.mem_singleton.mp hr
        cases hs

/-- There is nothing else in the rows. -/
theorem shown_of_mem_rows (hr : r ∈ d.rows (.ofSource source) file) (hs : s ∈ r.texts) :
    Shown source file d s := by
  rcases List.mem_cons.mp hr with rfl | hr
  · rcases List.mem_cons.mp hs with rfl | hs
    · exact .text (mem_texts.mpr (.inl rfl))
    · obtain ⟨code, hcode, rfl⟩ := List.mem_map.mp hs
      exact .text (mem_texts.mpr (.inr (.inl (Option.mem_toList.mp hcode))))
  · rcases List.mem_append.mp hr with hr | hr
    · exact shown_of_mem_middleRows hr hs
    · exact shown_of_mem_remarkRows hr hs

theorem Shown.escape_not_mem (h : Shown source file d s) (hsource : '\x1b' ∉ source.toList)
    (hfile : '\x1b' ∉ file.toList) (hd : ∀ s ∈ d.texts, '\x1b' ∉ s.toList) : '\x1b' ∉ s := by
  cases h with
  | text hs => exact hd _ hs
  | file => exact hfile
  | source hs => exact fun h => hsource (hs h)
  | marks hs =>
      intro h
      obtain heq | ⟨role, heq⟩ := hs _ h
      · exact absurd heq (by decide)
      · cases role <;> exact absurd heq (by decide)
  | word hs => rcases hs with rfl | rfl <;> decide

section
variable (hsource : '\x1b' ∉ source.toList) (hfile : '\x1b' ∉ file.toList)
include hsource hfile

theorem escape_not_mem_styled (hd : ∀ s ∈ d.texts, '\x1b' ∉ s.toList) :
    '\x1b' ∉ (d.styled (.ofSource source) file).plain := by
  rw [styled_eq_text, Row.plain_text, List.mem_flatMap]
  rintro ⟨r, hr, hmem⟩
  have hrow : ∀ s ∈ r.texts, '\x1b' ∉ s := fun s hs =>
    (shown_of_mem_rows hr hs).escape_not_mem hsource hfile hd
  exact Row.escape_not_mem_plain hrow _ hmem

theorem escape_not_mem_styledAll {ds : List Diagnostic}
    (hds : ∀ d ∈ ds, ∀ s ∈ d.texts, '\x1b' ∉ s.toList) :
    '\x1b' ∉ (styledAll source file ds).plain := by
  induction ds with
  | nil => exact List.not_mem_nil
  | cons d ds ih =>
      obtain ⟨hd, hds⟩ := List.forall_mem_cons.mp hds
      have hfirst := escape_not_mem_styled hsource hfile hd
      cases ds with
      | nil => simpa [styledAll] using hfirst
      | cons d' ds =>
          have hsplit : styledAll source file (d :: d' :: ds) =
              d.styled (.ofSource source) file ++
                (Styled.newline ++ styledAll source file (d' :: ds)) := by
            simp [styledAll]
          rw [hsplit, Styled.plain_append, Styled.plain_append, Styled.plain_newline]
          simpa [hfirst] using ih hds

/-- The text in colours is the text without colours, once the control sequences are taken out. -/
theorem withoutSequences_render_styledAll {ds : List Diagnostic}
    (hds : ∀ d ∈ ds, ∀ s ∈ d.texts, '\x1b' ∉ s.toList) :
    Styled.withoutSequences (Styled.render true (styledAll source file ds)).toList =
      (Styled.render false (styledAll source file ds)).toList := by
  apply Styled.withoutSequences_render
  rw [Styled.render, String.toList_ofList]
  exact escape_not_mem_styledAll hsource hfile hds

end

/-- Labels of both roles that overlap, one in the middle of another, with remarks, before a
diagnostic without labels. -/
theorem withoutSequences_render_overlapping :
    let source := "var é = a;\nprint b;"
    let ds : List Diagnostic :=
      [⟨.error, some "E0200", "m", [.secondary ⟨5, 7⟩ "in", .primary ⟨0, 10⟩ "out",
          ⟨⟨12, 17⟩, .secondary, none⟩], ["n"], some "h"⟩,
        ⟨.warning, none, "w", [], [], none⟩]
    '\x1b' ∉ source.toList ∧ '\x1b' ∉ "a.lam".toList ∧
      (∀ d ∈ ds, ∀ s ∈ d.texts, '\x1b' ∉ s.toList) ∧
      Styled.withoutSequences (Styled.render true (styledAll source "a.lam" ds)).toList =
        (Styled.render false (styledAll source "a.lam" ds)).toList ∧
      '\x1b' ∈ (styledAll source "a.lam" ds).ansi ∧
      Styled.render false (styledAll source "a.lam" ds) =
        "error[E0200]: m\n  --> a.lam:1:1\n    |\n" ++
          "  1 | var é = a;\n    | ^^^^^--^^^\n    |      in\n    | out\n" ++
          "  2 | print b;\n    | -----\n    |\n    = note: n\n    = help: h\n\nwarning: w\n" :=
  ⟨by decide, by decide, by decide,
    withoutSequences_render_styledAll (by decide) (by decide) (by decide), by decide +kernel,
    by decide +kernel⟩

end Diagnostic

end LamScope
