import LamScope.Proofs.Diagnostic.Layout
import LamScope.Proofs.Diagnostic.ReportReading

/-!
# Rows and reports

The text of a diagnostic and its object in a report are made apart from each other. Main statement:
they tell of the same place, show the same text of its line, and the lines shown in the text are
those on which the labels of the object start, in increasing order, with dots just where lines are
left out.
-/
namespace LamScope

/-- Line numbers one after the other, with a gap before each that is not the next one. -/
def withGaps : List Nat → List (Option Nat)
  | [] => []
  | [n] => [some n]
  | n :: k :: rest => some n :: (if k = n + 1 then [] else [none]) ++ withGaps (k :: rest)

/-- Source lines by their numbers, and the gaps between them. -/
def Row.landmark? : Row → Option (Option Nat)
  | source line _ => some (some line)
  | gap => some none
  | _ => none

theorem Excerpt.landmarks_shownAll {es : List Excerpt} (h : es.Pairwise (·.line < ·.line)) :
    (shownAll es).filterMap Row.landmark? = withGaps (es.map line) := by
  have hshown (e : Excerpt) : e.shown.filterMap Row.landmark? = [some e.line] := by
    rw [shown, List.filterMap_cons,
      filterMap_beneath fun r hr => by cases r <;> first | rfl | cases hr]
    rfl
  induction es with
  | nil => rfl
  | cons e es ih =>
      cases es with
      | nil => exact hshown e
      | cons f es =>
          obtain ⟨he, hes⟩ := List.pairwise_cons.mp h
          have hlt : e.line < f.line := he f List.mem_cons_self
          have hgap : (if e.line + 1 < f.line then [Row.gap] else []).filterMap Row.landmark? =
              if f.line = e.line + 1 then [] else [none] := by
            by_cases hnext : f.line = e.line + 1
            · rw [if_neg (by omega), if_pos hnext]
              rfl
            · rw [if_pos (by omega), if_neg hnext]
              rfl
          rw [shownAll, List.filterMap_append, List.filterMap_append, hshown, hgap, ih hes]
          rfl

namespace Report

open JsonValue

/-- The position and the text of the line that an object gives as its location. -/
def location? (v : JsonValue) : Option (Position × String) := do
  let location ← v.get? "location"
  let line ← (← location.get? "line").asNat?
  let column ← (← location.get? "column").asNat?
  return (⟨line, column⟩, ← (← location.get? "source_line").asString?)

/-- The line on which a label starts. -/
def startLine? (v : JsonValue) : Option Nat := do
  (← (← v.get? "start").get? "line").asNat?

/-- The lines on which the labels of an object start. -/
def startLines? (v : JsonValue) : Option (List Nat) := do
  (← v.get? "labels").listOf? startLine?

theorem location?_json (e : Entry) :
    location? e.json = e.location.map fun (start, text) => (start.position, text) := by
  have hfield : e.json.get? "location" = e.location.map fun (start, text) =>
      .object (locusFields start ++ [("source_line", .string text)]) := by
    simp only [Entry.json, JsonValue.get?, List.lookup_append, lookup_field?, lookup_singleton]
    simp
  unfold location?
  rw [hfield]
  cases e.location <;> rfl

theorem startLines?_json (m : LineMap) (d : Diagnostic) :
    startLines? (Entry.ofDiagnostic m d).json = some (d.labels.map (LamScope.Label.line m)) := by
  obtain ⟨-, -, -, hlabels, -⟩ := (Entry.ofDiagnostic m d).get?_json
  have hlabel (l : LamScope.Label) : startLine? (Label.ofLabel m l).json = some (l.line m) := by
    obtain ⟨span, role, message⟩ := l
    cases message <;> rfl
  unfold startLines?
  rw [hlabels, Option.bind_eq_bind, Option.bind_some, Entry.ofDiagnostic, List.map_map]
  exact listOf?_array hlabel d.labels

end Report

/-- The rows of a text and an object of a report say the same of a diagnostic with these labels. -/
structure Row.Agree (rows : List Row) (v : JsonValue) (labels : List Label) : Prop where
  placed : rows.filterMap place? ≠ [] ↔ labels ≠ []
  located : (Report.location? v).isSome ↔ labels ≠ []
  place : rows.filterMap place? = ((Report.location? v).map Prod.fst).toList
  text : ∀ p s, Report.location? v = some (p, s) →
    ∀ text, .source p.line text ∈ rows ↔ text = s.toList
  lines : ∃ ns, Report.startLines? v = some ns ∧
    ∀ n, n ∈ (sources rows).map Prod.fst ↔ n ∈ ns
  ordered : ((sources rows).map Prod.fst).Pairwise (· < ·)
  gaps : rows.filterMap landmark? = withGaps ((sources rows).map Prod.fst)

namespace Diagnostic

variable {m : LineMap} {file : String} {d : Diagnostic}

theorem exists_label_of_primarySpan? {primary : Span} (h : d.primarySpan? = some primary) :
    ∃ l ∈ d.labels, l.span = primary := by
  obtain ⟨l, hl, hspan⟩ := Option.map_eq_some_iff.mp h
  refine ⟨l, ?_, hspan⟩
  cases hfind : d.labels.find? fun l => l.role == .primary with
  | some k =>
      rw [hfind] at hl
      obtain rfl : k = l := Option.some.inj hl
      exact List.mem_of_find?_eq_some hfind
  | none =>
      rw [hfind] at hl
      exact List.mem_of_mem_head? hl

theorem places_rows : (d.rows m file).filterMap Row.place? = (d.place? m).toList := by
  have hpick := filterMap_rows (f := Row.place?) m file d fun r hr => by
    cases r <;> first | rfl | cases hr
  have hnone : (Excerpt.shownAll (Excerpt.ofLabels m d.labels)).filterMap Row.place? = [] := by
    refine List.filterMap_eq_nil_iff.mpr fun r hr => ?_
    obtain rfl | ⟨e, -, hr⟩ := Excerpt.mem_shownAll hr
    · rfl
    · rcases List.mem_cons.mp hr with rfl | hr
      · rfl
      · have hunder := Excerpt.isUnder_of_mem_beneath hr
        cases r <;> first | rfl | cases hunder
  rw [hpick, hnone, List.append_nil]
  cases d.place? m <;> rfl

theorem landmarks_rows (h : (Excerpt.ofLabels m d.labels).Pairwise (·.line < ·.line)) :
    (d.rows m file).filterMap Row.landmark? =
      withGaps ((Excerpt.ofLabels m d.labels).map Excerpt.line) := by
  have hpick := filterMap_rows (f := Row.landmark?) m file d fun r hr => by
    cases r <;> first | rfl | cases hr
  have hplace : ((d.place? m).bind fun p => Row.landmark? (.place file p)) = none := by
    cases d.place? m <;> rfl
  rw [hpick, hplace, Excerpt.landmarks_shownAll h]
  rfl

variable {source : String}

/-- Labels are never left out of the text, so the place is shown if there are any. -/
theorem place?_ofSource : d.place? (.ofSource source) =
    d.primarySpan?.map fun primary => (LineMap.ofSource source).position primary.start := by
  unfold place?
  split
  · rename_i hempty
    have hlabels := Excerpt.ofLabels_eq_nil.mp (List.isEmpty_iff.mp hempty)
    rw [d.primarySpan?_eq_none.mpr hlabels]
    rfl
  · rfl

theorem location?_ofDiagnostic :
    Report.location? (Report.Entry.ofDiagnostic m d).json = d.primarySpan?.map fun primary =>
      (m.position primary.start,
        String.ofList ((m.lineText? (m.position primary.start).line).getD [])) := by
  rw [Report.location?_json, Report.Entry.ofDiagnostic, Option.map_map]
  rfl

/-- The text of the line of a place is the one that a report gives. -/
theorem source_mem_rows_of_primarySpan? {primary : Span} (h : d.primarySpan? = some primary)
    (text : List Char) :
    .source ((LineMap.ofSource source).position primary.start).line text ∈
        d.rows (.ofSource source) file ↔
      (LineMap.ofSource source).lineText? ((LineMap.ofSource source).position primary.start).line =
        some text := by
  have hcollect := Excerpt.collect_ofLabels source d.labels
  obtain ⟨l, hl, rfl⟩ := exists_label_of_primarySpan? h
  rw [source_mem_rows]
  constructor
  · rintro ⟨e, he, hline, rfl⟩
    exact hline ▸ hcollect.text e he
  · intro htext
    obtain ⟨e, he, hline⟩ := List.mem_map.mp ((hcollect.lines _).mpr ⟨l, hl, rfl⟩)
    have hetext := hcollect.text e he
    rw [hline] at hetext
    exact ⟨e, he, hline, Option.some.inj (hetext.symm.trans htext)⟩

/-- The text of a diagnostic and its object in a report agree, whatever the labels are. -/
theorem agree_rows (source file phase : String) (d : Diagnostic) :
    let m := LineMap.ofSource source
    let rows := d.rows m file
    let v := (Report.Entry.ofDiagnostic m d).json
    d.styled m file = Row.text rows ∧
      (Styled.render false (d.styled m file)).toList = rows.flatMap (Row.plain (Row.width rows)) ∧
      (JsonValue.read? (Report.ofDiagnostics source file phase [d]).json.text.toList).bind
        (·.get? "diagnostics") = some (.array [v]) ∧
      Row.Agree rows v d.labels := by
  intro m rows v
  have hcollect := Excerpt.collect_ofLabels source d.labels
  have hlines : (Row.sources rows).map Prod.fst = (Excerpt.ofLabels m d.labels).map Excerpt.line :=
    lines_rows m file d
  have hlocation : (Report.location? v).map Prod.fst = d.place? m := by
    rw [location?_ofDiagnostic, Option.map_map, place?_ofSource]
    rfl
  have hlocated : (Report.location? v).isSome ↔ d.labels ≠ [] := by
    rw [location?_ofDiagnostic, Option.isSome_map, ne_eq, ← d.primarySpan?_eq_none,
      Option.isSome_iff_ne_none]
  have hplace : rows.filterMap Row.place? = ((Report.location? v).map Prod.fst).toList := by
    rw [hlocation]
    exact places_rows
  refine ⟨styled_eq_text m file d, render_styled_plain m file d, ?_, ?_, hlocated, hplace, ?_,
    ⟨_, Report.startLines?_json m d, fun n => ?_⟩, ?_, ?_⟩
  · rw [JsonValue.read?_of_document (Report.document_text _)]
    rfl
  · rw [hplace, ← hlocated]
    cases Report.location? v <;> simp
  · intro p s hs text
    rw [location?_ofDiagnostic] at hs
    obtain ⟨primary, hprimary, hpair⟩ := Option.map_eq_some_iff.mp hs
    obtain ⟨rfl, rfl⟩ := Prod.mk.inj hpair
    obtain ⟨shown, hshown⟩ := LineMap.exists_lineText?_position source primary.start
    rw [source_mem_rows_of_primarySpan? hprimary, hshown, Option.getD_some, String.toList_ofList]
    exact ⟨fun h => (Option.some.inj h).symm, fun h => congrArg some h.symm⟩
  · rw [hlines, hcollect.lines n, List.mem_map]
  · rw [hlines]
    exact List.pairwise_map.mpr hcollect.ordered
  · rw [hlines]
    exact landmarks_rows hcollect.ordered

end Diagnostic

end LamScope
