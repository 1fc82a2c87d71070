import LamScope.Proofs.Diagnostic.Marks

/-!
# Marks and characters

Columns count bytes, while lines are shown in characters. Main statement: under a label on one line
stand as many blanks as there are bytes before it and as many marks as it has bytes, so the marks
point at the labelled text exactly if no character up to its end has more than one byte.
-/
namespace LamScope

open Text

theorem Text.byteLength_eq_length {cs : List Char} :
    byteLength cs = cs.length ↔ ∀ c ∈ cs, c.utf8Size = 1 := by
  induction cs with
  | nil => simp
  | cons c cs ih =>
      have hpos := c.utf8Size_pos
      have hle := length_le_byteLength cs
      rw [List.forall_mem_cons, ← ih, List.length_cons, byteLength_cons]
      omega

namespace Row

/-- Before the first mark of the row there are as many characters as before a text, and there are as
many marks as the text has characters. -/
structure PointsAt (row left taken : List Char) : Prop where
  blanks : (row.takeWhile (· = ' ')).length = left.length
  marks : row.countP (· ≠ ' ') = taken.length

/-- Blanks and then marks of one sign. -/
def run (blanks marks : Nat) (sign : Char) : List Char :=
  List.replicate blanks ' ' ++ List.replicate marks sign

theorem pointsAt_run {blanks marks : Nat} {sign : Char} (hsign : sign ≠ ' ') (hmarks : 0 < marks)
    {left taken : List Char} :
    PointsAt (run blanks marks sign) left taken ↔
      blanks = left.length ∧ marks = taken.length := by
  have hblanks : (run blanks marks sign).takeWhile (· = ' ') = List.replicate blanks ' ' := by
    obtain ⟨k, rfl⟩ := Nat.exists_eq_add_one.mpr hmarks
    rw [run, List.takeWhile_append_of_pos (by simp), List.replicate_succ,
      List.takeWhile_cons_of_neg (by simpa using hsign), List.append_nil]
  have hcount : (run blanks marks sign).countP (· ≠ ' ') = marks := by
    rw [run, List.countP_append, List.countP_replicate, List.countP_replicate]
    simp [hsign]
  constructor
  · intro h
    have hleft := h.blanks
    have htaken := h.marks
    rw [hblanks, List.length_replicate] at hleft
    rw [hcount] at htaken
    exact ⟨hleft, htaken⟩
  · rintro ⟨hleft, htaken⟩
    exact ⟨by rw [hblanks, List.length_replicate, hleft], by rw [hcount, htaken]⟩

variable {m : LineMap} {l : Label} {text row : List Char} {n k : Nat}

/-- The row of one label. -/
theorem Marked.eq_run (h : Marked m [l] text row) (hk : 0 < k)
    (hmarks : ∀ i, l.Marks m text i ↔ n ≤ i ∧ i < n + k) :
    row = run n k (Mark.sign l.role) := by
  have hsign : ∀ i, n ≤ i → i < n + k → row[i]? = some (Mark.sign l.role) := by
    intro i hn hi
    have hmark := (hmarks i).mpr ⟨hn, hi⟩
    cases hrole : l.role with
    | primary =>
        exact h.caret i l List.mem_cons_self hmark fun k hk _ => by
          rwa [List.mem_singleton.mp hk]
    | secondary => exact h.dash i l List.mem_cons_self hmark hrole
  have hblank : ∀ i < row.length, i < n ∨ n + k ≤ i → row[i]? = some ' ' := by
    intro i hi hout
    refine h.blank i hi (List.forall_mem_singleton.mpr fun hmark => ?_)
    have hin := (hmarks i).mp hmark
    omega
  have hge : n + k ≤ row.length := by
    have hlast := hsign (n + k - 1) (by omega) (by omega)
    have hlt := (List.getElem?_eq_some_iff.mp hlast).1
    omega
  have hle : row.length ≤ n + k := by
    refine Nat.le_of_not_lt fun hlt => h.trimmed ?_
    rw [List.getLast?_eq_getElem?]
    exact hblank _ (by omega) (.inr (by omega))
  refine List.ext_getElem? fun i => ?_
  rcases Nat.lt_or_ge i n with hi | hi
  · rw [hblank i (by omega) (.inl hi), run, List.getElem?_append_left (by simpa using hi),
      List.getElem?_replicate_of_lt hi]
  · rw [run, List.getElem?_append_right (by simpa using hi), List.length_replicate]
    rcases Nat.lt_or_ge i (n + k) with hlt | hge
    · rw [hsign i hi hlt, List.getElem?_replicate_of_lt (by omega)]
    · rw [List.getElem?_eq_none (by omega), List.getElem?_eq_none (by simp; omega)]

end Row

/-- The label is on one line: it takes these characters, and on the line there are those before
them. -/
structure Label.OnLine (cs before left taken right after : List Char) (l : Label) : Prop where
  line : LineMap.Line cs before (left ++ taken ++ right) after
  span : l.span = ⟨byteLength (before ++ left), byteLength (before ++ left ++ taken)⟩
  nonempty : taken ≠ []

namespace Label.OnLine

variable {source : String} {before left taken right after : List Char} {l : Label}

theorem byteLength_pos (h : l.OnLine source.toList before left taken right after) :
    0 < byteLength taken :=
  Nat.pos_of_ne_zero fun hzero => h.nonempty (eq_nil_of_byteLength_eq_zero hzero)

section
variable (h : l.OnLine source.toList before left taken right after)
  (hsize : byteLength source.toList < UInt32.size - 1)
include h hsize

theorem position_start : (LineMap.ofSource source).position l.span.start =
    ⟨before.count '\n' + 1, byteLength left + 1⟩ := by
  have hline := h.line
  rw [List.append_assoc] at hline
  rw [h.span]
  exact hline.position_eq hsize

theorem position_stop : (LineMap.ofSource source).position l.span.stop =
    ⟨before.count '\n' + 1, byteLength left + byteLength taken + 1⟩ := by
  rw [h.span, List.append_assoc, h.line.position_eq hsize, byteLength_append]

theorem line_eq : l.line (.ofSource source) = before.count '\n' + 1 := by
  rw [Label.line, h.position_start hsize]

theorem marks_iff (text : List Char) (i : Nat) : l.Marks (.ofSource source) text i ↔
    byteLength left ≤ i ∧ i < byteLength left + byteLength taken := by
  unfold Label.Marks Label.stop Label.line Label.column
  rw [h.position_start hsize, h.position_stop hsize, if_pos rfl]
  have hpos := h.byteLength_pos
  dsimp only
  omega

end

theorem left_prefix (h : l.OnLine source.toList before left taken right after) :
    left <+: LineMap.withoutReturn (left ++ taken ++ right) := by
  unfold LineMap.withoutReturn
  split
  · rw [List.append_assoc, List.dropLast_append_of_ne_nil (by simp [h.nonempty])]
    exact List.prefix_append _ _
  · rw [List.append_assoc]
    exact List.prefix_append _ _

theorem inside (h : l.OnLine source.toList before left taken right after) :
    l.span.Inside source.toList := by
  rw [h.span, h.line.text]
  simp only [Span.Inside, byteLength_append]
  omega

end Label.OnLine

namespace Excerpt

variable {source : String} {before left taken right after : List Char} {l : Label} {e : Excerpt}

theorem exists_ofLabels_singleton (hsize : byteLength source.toList < UInt32.size - 1)
    (h : l.OnLine source.toList before left taken right after) :
    ∃ e, ofLabels (.ofSource source) [l] = [e] ∧ e.line = before.count '\n' + 1 ∧
      e.text = LineMap.withoutReturn (left ++ taken ++ right) ∧
      e.marks = [l.mark (.ofSource source) e.text] := by
  have htext : (LineMap.ofSource source).lineText? (l.line (.ofSource source)) =
      some (LineMap.withoutReturn (left ++ taken ++ right)) := by
    rw [h.line_eq hsize, h.line.lineText?_eq]
  refine ⟨⟨l.line (.ofSource source), LineMap.withoutReturn (left ++ taken ++ right),
    [l.mark (.ofSource source) (LineMap.withoutReturn (left ++ taken ++ right))]⟩,
    ofLabels_singleton htext, h.line_eq hsize, rfl, rfl⟩

theorem beneath_singleton (hsize : byteLength source.toList < UInt32.size - 1)
    (h : l.OnLine source.toList before left taken right after)
    (he : ofLabels (.ofSource source) [l] = [e])
    (hmarks : e.marks = [l.mark (.ofSource source) e.text]) :
    e.beneath = [.marks (Row.run (byteLength left) (byteLength taken) (Mark.sign l.role))
      (l.message.map fun s => (l.role, s))] := by
  have hcollect := collect_ofLabels source [l]
  have hmem : e ∈ ofLabels (.ofSource source) [l] := he ▸ List.mem_singleton_self e
  have hinside : ∀ k ∈ [l], k.span.Inside source.toList := List.forall_mem_singleton.mpr h.inside
  have hline : l.line (.ofSource source) = e.line := by
    obtain ⟨k, hk, hline⟩ := (hcollect.lines e.line).mp (List.mem_map_of_mem hmem)
    rwa [List.mem_singleton.mp hk] at hline
  have honLine : Label.onLine (.ofSource source) e.line [l] = [l] := by
    rw [Label.onLine, List.filter_cons_of_pos (by simpa using hline)]
    rfl
  have hrow : e.row = Row.run (byteLength left) (byteLength taken) (Mark.sign l.role) := by
    have hmarked := hcollect.marked hsize hinside hmem
    rw [honLine] at hmarked
    exact hmarked.eq_run h.byteLength_pos (h.marks_iff hsize e.text)
  have hmessages : e.messages.reverse =
      (l.message.map fun s => (l.column (.ofSource source), l.role, s)).toList := by
    unfold messages
    rw [hmarks]
    cases hmessage : l.message <;> simp [Mark.sort, Mark.insert, Label.mark, hmessage]
  rw [hcollect.beneath_eq hsize hinside hmem, hrow, hmessages]
  cases l.message <;> rfl

end Excerpt

namespace Diagnostic

variable {source : String} {d : Diagnostic} {before left taken right after : List Char} {l : Label}

/-- The rows of a diagnostic with one label, which is on one line. -/
theorem rows_of_onLine (hsize : byteLength source.toList < UInt32.size - 1)
    (hlabels : d.labels = [l])
    (h : l.OnLine source.toList before left taken right after) (file : String) :
    d.rows (.ofSource source) file =
      .title d.severity d.code d.message ::
        .place file ⟨before.count '\n' + 1, byteLength left + 1⟩ :: .empty ::
        .source (before.count '\n' + 1) (LineMap.withoutReturn (left ++ taken ++ right)) ::
        .marks (Row.run (byteLength left) (byteLength taken) (Mark.sign l.role))
          (l.message.map fun s => (l.role, s)) ::
        (d.lastMargin ++ d.remarkRows) := by
  obtain ⟨e, he, hline, htext, hmarks⟩ := Excerpt.exists_ofLabels_singleton hsize h
  rw [rows_of_singleton hlabels he, Excerpt.shown, Excerpt.beneath_singleton hsize h he hmarks,
    hline, htext, h.position_start hsize]
  rfl

/-- The uncoloured text of a diagnostic with one label has one row of marks, with a blank for each
byte that stands on the line before the labelled text and a mark for each byte of that. -/
structure MarksBytes (m : LineMap) (file : String) (d : Diagnostic) (l : Label) (line : Nat)
    (shown left taken : List Char) : Prop where
  rendered : (Styled.render false (d.styled m file)).toList =
    (d.rows m file).flatMap (Row.plain (Row.width (d.rows m file)))
  rows_eq : d.rows m file =
    .title d.severity d.code d.message :: .place file ⟨line, byteLength left + 1⟩ :: .empty ::
      .source line shown ::
      .marks (Row.run (byteLength left) (byteLength taken) (Mark.sign l.role))
        (l.message.map fun s => (l.role, s)) ::
      (d.lastMargin ++ d.remarkRows)
  left_prefix : left <+: shown
  pointsAt : Row.PointsAt (Row.run (byteLength left) (byteLength taken) (Mark.sign l.role)) left
    taken ↔ ∀ c ∈ left ++ taken, c.utf8Size = 1

/-- Under a label on one line the marks stand as far right as there are bytes before the label, one
for each of its bytes. They point at the labelled text if all characters up to its end have one
byte, and else they do not. -/
theorem marksBytes_of_onLine (hsize : byteLength source.toList < UInt32.size - 1)
    (hlabels : d.labels = [l]) (h : l.OnLine source.toList before left taken right after)
    (file : String) :
    d.MarksBytes (.ofSource source) file l (before.count '\n' + 1)
      (LineMap.withoutReturn (left ++ taken ++ right)) left taken := by
  have hsign : Mark.sign l.role ≠ ' ' := by
    cases l.role <;> decide
  refine ⟨d.render_styled_plain _ file, rows_of_onLine hsize hlabels h file, h.left_prefix, ?_⟩
  rw [Row.pointsAt_run hsign h.byteLength_pos, List.forall_mem_append, ← byteLength_eq_length,
    ← byteLength_eq_length]

/-- A label behind a character of two bytes, on a line that ends in a carriage return. -/
theorem marksBytes_of_onLine_string :
    let source := "a;\n\"é\" @;\r\n"
    let l : Label := .primary ⟨8, 9⟩ "here"
    let d : Diagnostic := ⟨.error, none, "m", [l], [], none⟩
    byteLength source.toList < UInt32.size - 1 ∧ d.labels = [l] ∧
      l.OnLine source.toList "a;\n".toList "\"é\" ".toList ['@'] [';', '\r'] ['\n'] ∧
      d.MarksBytes (.ofSource source) "a.lam" l 2 "\"é\" @;".toList "\"é\" ".toList ['@'] := by
  intro source l d
  have hline : l.OnLine source.toList "a;\n".toList "\"é\" ".toList ['@'] [';', '\r'] ['\n'] :=
    ⟨⟨by decide, .inr ⟨"a;".toList, by decide⟩, by decide, .inr ⟨[], rfl⟩⟩, by decide, by decide⟩
  exact ⟨by decide, rfl, hline, marksBytes_of_onLine (d := d) (by decide) rfl hline "a.lam"⟩

/-- The second `é` is the fifth character of its line, but two carets mark it, under the places of
the sixth and the seventh. -/
theorem marks_pass_characters :
    let source := "\"é\" é"
    let l : Label := .primary ⟨5, 7⟩ "here"
    let d : Diagnostic := ⟨.error, none, "m", [l], [], none⟩
    l.OnLine source.toList [] "\"é\" ".toList ['é'] [] [] ∧
      (d.styled (.ofSource source) "a.lam").plain =
        "error: m\n  --> a.lam:1:6\n    |\n  1 | \"é\" é\n    |      ^^ here\n".toList ∧
      d.rows (.ofSource source) "a.lam" =
        [.title .error none "m", .place "a.lam" ⟨1, 6⟩, .empty, .source 1 source.toList,
          .marks "     ^^".toList (some (.primary, "here"))] ∧
      ¬ Row.PointsAt "     ^^".toList "\"é\" ".toList ['é'] := by
  intro source l d
  refine ⟨⟨⟨by decide, .inl rfl, by decide, .inl rfl⟩, by decide, by decide⟩, by decide +kernel,
    by decide +kernel, fun h => ?_⟩
  exact absurd h.blanks (by decide)

end Diagnostic

end LamScope
