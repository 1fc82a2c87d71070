import LamScope.Diagnostic.Report
import LamScope.Proofs.Text.JsonReading

/-!
# Reading reports

A report is read by looking up the fields of its objects; a field that is not there stands for what
the diagnostic does not have. Main statement: the text of a report is a document of one value only,
and the diagnostics read from it are those that it was made of.
-/
namespace LamScope

namespace JsonValue

def asNat? : JsonValue → Option Nat
  | nat n => some n
  | _ => none

def asString? : JsonValue → Option String
  | string s => some s
  | _ => none

def asArray? : JsonValue → Option (List JsonValue)
  | array vs => some vs
  | _ => none

/-- The value of a field of an object. -/
def get? (key : String) : JsonValue → Option JsonValue
  | object fs => fs.lookup key
  | _ => none

/-- An array of values of one form. -/
def listOf? {α : Type} (item? : JsonValue → Option α) (v : JsonValue) : Option (List α) := do
  (← v.asArray?).mapM item?

theorem listOf?_array {α β : Type} {item? : JsonValue → Option β} {json : α → JsonValue}
    {g : α → β} (h : ∀ a, item? (json a) = some (g a)) (as : List α) :
    listOf? item? (array (as.map json)) = some (as.map g) := by
  have hall : (as.map json).mapM item? = some (as.map g) := by
    induction as with
    | nil => rfl
    | cons a as ih =>
        rw [List.map_cons, List.mapM_cons, h, ih]
        rfl
  exact hall

theorem listOf?_array_map {α : Type} {item? : JsonValue → Option α} {json : α → JsonValue}
    (h : ∀ a, item? (json a) = some a) (as : List α) :
    listOf? item? (array (as.map json)) = some as := by
  have hlist := listOf?_array (g := id) h as
  rwa [List.map_id] at hlist

end JsonValue

namespace Report

open JsonValue

def severity? (s : String) : Option Severity :=
  if s = "error" then some .error else if s = "warning" then some .warning else none

def role? (s : String) : Option Role :=
  if s = "primary" then some .primary else if s = "secondary" then some .secondary else none

/-- The label that an object shows. -/
def label? (v : JsonValue) : Option LamScope.Label := do
  let role ← role? (← (← v.get? "role").asString?)
  let start ← (← (← v.get? "start").get? "byte_offset").asNat?
  let stop ← (← (← v.get? "end").get? "byte_offset").asNat?
  return ⟨⟨start, stop⟩, role, (v.get? "message").bind asString?⟩

/-- The texts of an array, or none if there is no array. -/
def texts? : Option JsonValue → Option (List String)
  | some v => v.listOf? asString?
  | none => some []

/-- The diagnostic that an object shows. -/
def diagnostic? (v : JsonValue) : Option Diagnostic := do
  let severity ← severity? (← (← v.get? "severity").asString?)
  let message ← (← v.get? "message").asString?
  let labels ← (← v.get? "labels").listOf? label?
  let notes ← texts? (v.get? "notes")
  return { severity, code := (v.get? "code").bind asString?, message, labels, notes
           help := (v.get? "help").bind asString? }

/-- The diagnostics of the report that a text shows. -/
def read? (text : String) : Option (List Diagnostic) := do
  (← (← JsonValue.read? text.toList).get? "diagnostics").listOf? diagnostic?

theorem label?_json (m : LineMap) (l : LamScope.Label) :
    label? (Label.ofLabel m l).json = some l := by
  obtain ⟨⟨start, stop⟩, role, message⟩ := l
  cases role <;> cases message <;> rfl

theorem lookup_singleton (key other : String) (v : JsonValue) :
    [(other, v)].lookup key = if key = other then some v else none := by
  rw [List.lookup_cons]
  split
  · rename_i h
    rw [if_pos (eq_of_beq h)]
  · rename_i h
    rw [if_neg (ne_of_beq_false h), List.lookup_nil]

theorem lookup_field? (key other : String) (value : Option JsonValue) :
    (field? other value).lookup key = if key = other then value else none := by
  cases value with
  | none => exact (ite_self none).symm
  | some v => exact lookup_singleton key other v

theorem severity?_word (s : Severity) : severity? s.word = some s := by
  cases s <;> rfl

/-- The fields of the object that an entry is written as. -/
theorem Entry.get?_json (e : Entry) :
    e.json.get? "severity" = some (.string e.severity.word) ∧
      e.json.get? "code" = e.code.map .string ∧
      e.json.get? "message" = some (.string e.message) ∧
      e.json.get? "labels" = some (.array (e.labels.map Label.json)) ∧
      e.json.get? "notes" =
        (if e.notes.isEmpty then none else some (.array (e.notes.map .string))) ∧
      e.json.get? "help" = e.help.map .string := by
  simp only [json, JsonValue.get?, List.lookup_append, lookup_field?, lookup_singleton]
  simp

theorem bind_asString? (s : Option String) : (s.map JsonValue.string).bind asString? = s := by
  cases s <;> rfl

theorem texts?_array (notes : List String) :
    texts? (if notes.isEmpty then none else some (.array (notes.map .string))) = some notes := by
  cases notes with
  | nil => rfl
  | cons note others =>
      have htext (s : String) : asString? (.string s) = some s := rfl
      exact listOf?_array_map htext (note :: others)

theorem diagnostic?_json (m : LineMap) (d : Diagnostic) :
    diagnostic? (Entry.ofDiagnostic m d).json = some d := by
  obtain ⟨hseverity, hcode, hmessage, hlabels, hnotes, hhelp⟩ :=
    (Entry.ofDiagnostic m d).get?_json
  have hlist : listOf? label? (.array ((Entry.ofDiagnostic m d).labels.map Label.json)) =
      some d.labels := by
    rw [Entry.ofDiagnostic, List.map_map]
    exact listOf?_array_map (label?_json m) d.labels
  unfold diagnostic?
  rw [hseverity, hcode, hmessage, hlabels, hnotes, hhelp, texts?_array, bind_asString?,
    bind_asString?]
  simp only [asString?, severity?_word, hlist, Option.bind_eq_bind, Option.bind_some]
  rfl

theorem document_text (r : Report) : Document r.json.text.toList r.json := by
  have h := JsonValue.document_text r.json space_nil
  rwa [List.append_nil] at h

theorem read?_ofDiagnostics (source file phase : String) (ds : List Diagnostic) :
    read? (ofDiagnostics source file phase ds).json.text = some ds := by
  have hfield : (ofDiagnostics source file phase ds).json.get? "diagnostics" =
      some (.array ((ds.map (Entry.ofDiagnostic (.ofSource source))).map Entry.json)) := rfl
  unfold read?
  rw [JsonValue.read?_of_document (document_text _), Option.bind_eq_bind, Option.bind_some, hfield,
    Option.bind_some, List.map_map]
  exact listOf?_array_map (diagnostic?_json (.ofSource source)) ds

/-- The text of a report is a JSON document, of one value only, from which the diagnostics can be
read that the report was made of. So different diagnostics have different reports. -/
theorem readback_ofDiagnostics (source file phase : String) (ds : List Diagnostic) :
    let r := ofDiagnostics source file phase ds
    (∀ v, Document r.json.text.toList v ↔ v = r.json) ∧ read? r.json.text = some ds ∧
      ∀ others, (ofDiagnostics source file phase others).json.text = r.json.text →
        others = ds := by
  refine ⟨fun v => ⟨fun h => ?_, ?_⟩, read?_ofDiagnostics source file phase ds, fun others h => ?_⟩
  · have hread := JsonValue.read?_of_document h
    rw [JsonValue.read?_of_document (document_text _)] at hread
    exact (Option.some.inj hread).symm
  · rintro rfl
    exact document_text _
  · have hread := read?_ofDiagnostics source file phase others
    rw [h, read?_ofDiagnostics] at hread
    exact (Option.some.inj hread).symm

end Report

end LamScope
