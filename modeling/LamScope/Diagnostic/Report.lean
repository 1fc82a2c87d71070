import LamScope.Diagnostic.Basic
import LamScope.Diagnostic.Code
import LamScope.LineMap
import LamScope.Text.JsonValue

/-!
# Diagnostics for programs

A report lists diagnostics with their places worked out, and counts them. As a JSON document it
leaves out what a diagnostic does not have.
-/
namespace LamScope

/-- An offset with its line and column. -/
structure Locus where
  position : Position
  offset : Nat
deriving DecidableEq, Repr

namespace Report

structure Label where
  role : Role
  message : Option String
  start : Locus
  stop : Locus

structure Entry where
  severity : Severity
  code : Option String
  category : Option Category
  message : String
  /-- The start of the primary span and the text of its line. -/
  location : Option (Locus × String)
  labels : List Label
  notes : List String
  help : Option String

end Report

structure Report where
  file : String
  phase : String
  entries : List Report.Entry

namespace Report

def locus (m : LineMap) (offset : Nat) : Locus := ⟨m.position offset, offset⟩

def Label.ofLabel (m : LineMap) (l : LamScope.Label) : Label :=
  ⟨l.role, l.message, locus m l.span.start, locus m l.span.stop⟩

def Entry.ofDiagnostic (m : LineMap) (d : Diagnostic) : Entry where
  severity := d.severity
  code := d.code
  category := (d.code.bind CodeInfo.find?).map CodeInfo.category
  message := d.message
  location := d.primarySpan?.map fun span =>
    let start := locus m span.start
    (start, String.ofList ((m.lineText? start.position.line).getD []))
  labels := d.labels.map (.ofLabel m)
  notes := d.notes
  help := d.help

def ofDiagnostics (source file phase : String) (ds : List Diagnostic) : Report :=
  ⟨file, phase, ds.map (.ofDiagnostic (.ofSource source))⟩

def errorCount (r : Report) : Nat := r.entries.countP fun e => e.severity == .error

def warningCount (r : Report) : Nat := r.entries.countP fun e => e.severity == .warning

/-- Warnings do not stand in the way. -/
def success (r : Report) : Bool := r.errorCount == 0

/-- A field that is left out when it has no value. -/
def field? (key : String) (value : Option JsonValue) : List (String × JsonValue) :=
  (value.map fun v => (key, v)).toList

def locusFields (l : Locus) : List (String × JsonValue) :=
  [("line", .nat l.position.line), ("column", .nat l.position.column),
    ("byte_offset", .nat l.offset)]

def Label.json (l : Label) : JsonValue :=
  .object ([("role", .string l.role.word)] ++ field? "message" (l.message.map .string)
    ++ [("start", .object (locusFields l.start)), ("end", .object (locusFields l.stop))])

def Entry.json (e : Entry) : JsonValue :=
  let location := e.location.map fun (start, text) =>
    JsonValue.object (locusFields start ++ [("source_line", .string text)])
  let notes := if e.notes.isEmpty then none else some (.array (e.notes.map .string))
  .object ([("severity", .string e.severity.word)] ++ field? "code" (e.code.map .string)
    ++ field? "category" (e.category.map fun c => .string c.name)
    ++ [("message", .string e.message)] ++ field? "location" location
    ++ [("labels", .array (e.labels.map Label.json))] ++ field? "notes" notes
    ++ field? "help" (e.help.map .string))

/-- The version of the form of reports. -/
def version : Nat := 1

def json (r : Report) : JsonValue :=
  .object [("version", .nat version), ("file", .string r.file), ("success", .bool r.success),
    ("phase", .string r.phase), ("diagnostics", .array (r.entries.map Entry.json)),
    ("error_count", .nat r.errorCount), ("warning_count", .nat r.warningCount)]

end Report

end LamScope
