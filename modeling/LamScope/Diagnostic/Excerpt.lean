import LamScope.Diagnostic.Basic
import LamScope.LineMap
import LamScope.Text.Pad
import LamScope.Text.Styled

/-!
# Diagnostics for people

A diagnostic is shown with the source lines that its labels start on. Under each line a row of
marks shows the labelled columns, counted in bytes: carets for primary labels, dashes for
secondary ones, which win where both fall. A single message stands beside the marks; of several,
each has a row of its own below.
-/
namespace LamScope

/-- A label on its line: from one column up to another. -/
structure Mark where
  start : Nat
  stop : Nat
  role : Role
  message : Option String
deriving DecidableEq, Repr

/-- A source line with its marks, in the order of their labels. -/
structure Excerpt where
  line : Nat
  text : List Char
  marks : List Mark
deriving DecidableEq, Repr

namespace Excerpt

/-- The line that a label starts on, and the label's mark there. A label that ends on another
line is marked to the end of its first one, and every label has at least one column. -/
def ofLabel? (m : LineMap) (l : Label) : Option Excerpt :=
  let first := m.position l.span.start
  let last := m.position l.span.stop
  (m.lineText? first.line).map fun text =>
    let stop := if last.line = first.line then last.column else Text.byteLength text + 1
    ⟨first.line, text, [⟨first.column, max stop (first.column + 1), l.role, l.message⟩]⟩

/-- Adds an excerpt to others in increasing order of lines. Of two with the same line the marks
are put together. -/
def add (e : Excerpt) : List Excerpt → List Excerpt
  | [] => [e]
  | f :: rest =>
      if e.line < f.line then e :: f :: rest
      else if e.line = f.line then { f with marks := f.marks ++ e.marks } :: rest
      else f :: add e rest

def ofLabels (m : LineMap) (labels : List Label) : List Excerpt :=
  (labels.filterMap (ofLabel? m)).foldl (fun es e => add e es) []

end Excerpt

namespace Mark

/-- Primary marks come first, and of the same role those that start further left. -/
def before (a b : Mark) : Bool :=
  match a.role, b.role with
  | .primary, .secondary => true
  | .secondary, .primary => false
  | _, _ => a.start ≤ b.start

def insert (a : Mark) : List Mark → List Mark
  | [] => [a]
  | b :: rest => if a.before b then a :: b :: rest else b :: insert a rest

/-- Marks in order; equals stay as they were. -/
def sort (marks : List Mark) : List Mark := marks.foldr insert []

def sign : Role → Char
  | .primary => '^'
  | .secondary => '-'

/-- Draws a mark over a row. What lies past the end of the row is cut off, and a mark that starts
at column zero is left out. -/
def draw (row : List Char) (a : Mark) : List Char :=
  row.mapIdx fun i c => if 0 < a.start ∧ a.start - 1 ≤ i ∧ i < a.stop - 1 then sign a.role else c

end Mark

namespace Excerpt

/-- How far marks may reach past the end of a line. -/
def overhang : Nat := 10

/-- The row of marks, up to the last of them. -/
def row (e : Excerpt) : List Char :=
  let blank := List.replicate (Text.byteLength e.text + overhang) ' '
  let drawn := (Mark.sort e.marks).foldl Mark.draw blank
  (drawn.reverse.dropWhile (· == ' ')).reverse

def messageStyle : Role → Style
  | .primary => .boldOf .red
  | .secondary => .ofColor .blue

def signStyle? (c : Char) : Option Style :=
  if c = '^' then some (.boldOf .red)
  else if c = '-' then some (.ofColor .blue)
  else none

/-- A row of marks in its colours, one chunk for each run of the same style. -/
def styledRow : List Char → Styled
  | [] => []
  | c :: cs =>
      match styledRow cs with
      | chunk :: rest =>
          if chunk.style = signStyle? c then ⟨chunk.style, c :: chunk.text⟩ :: rest
          else ⟨signStyle? c, [c]⟩ :: chunk :: rest
      | [] => [⟨signStyle? c, [c]⟩]

/-- The messages of the marks, with their columns. -/
def messages (e : Excerpt) : List (Nat × Role × String) :=
  (Mark.sort e.marks).filterMap fun a => a.message.map fun s => (a.start, a.role, s)

def bar : Styled := Styled.paint (.ofColor .blue) "|"

/-- The margin beside rows without a line number. -/
def margin (width : Nat) : Styled := Styled.raw (Text.spaces (width + 1) ++ " ") ++ bar

/-- The rows under a line. -/
def markRows (width : Nat) (e : Excerpt) : Styled :=
  let row := e.row
  if row.isEmpty then []
  else
    let marks := margin width ++ Styled.raw " " ++ styledRow row
    match e.messages with
    | [] => marks ++ Styled.newline
    | [(_, role, s)] =>
        marks ++ Styled.raw " " ++ Styled.paint (messageStyle role) s ++ Styled.newline
    | several =>
        marks ++ Styled.newline ++ several.reverse.flatMap fun (column, role, s) =>
          margin width ++ Styled.raw (" " ++ Text.spaces (column - 1))
            ++ Styled.paint (messageStyle role) s ++ Styled.newline

/-- The line itself, with its number, and the rows under it. -/
def rows (width : Nat) (e : Excerpt) : Styled :=
  Styled.paint (.boldOf .blue) (Text.padLeft (width + 1) (toString e.line))
    ++ Styled.raw " " ++ bar ++ Styled.raw (" " ++ String.ofList e.text ++ "\n")
    ++ markRows width e

/-- Excerpts one below the other, with dots where lines are left out. -/
def block (width : Nat) : List Excerpt → Styled
  | [] => []
  | [e] => e.rows width
  | e :: f :: rest =>
      let gap := if e.line + 1 < f.line then
        Styled.raw (Text.spaces width ++ " ") ++ Styled.paint (.ofColor .blue) "..."
          ++ Styled.newline
      else []
      e.rows width ++ gap ++ block width (f :: rest)

end Excerpt

namespace Diagnostic

def severityStyle : Severity → Style
  | .error => .boldOf .red
  | .warning => .boldOf .yellow

def header (d : Diagnostic) : Styled :=
  let style := severityStyle d.severity
  let code := match d.code with
    | some code => Styled.raw "[" ++ Styled.paint style code ++ Styled.raw "]"
    | none => []
  Styled.paint style d.severity.word ++ code ++ Styled.raw ": " ++ Styled.paint .bold d.message
    ++ Styled.newline

/-- A note or advice below the excerpts. -/
def remark (kind : String) (s : String) : Styled :=
  Styled.raw "    " ++ Styled.paint (.ofColor .cyan) "=" ++ Styled.raw " "
    ++ Styled.paint (.boldOf .cyan) kind ++ Styled.raw (": " ++ s ++ "\n")

def remarks (d : Diagnostic) : Styled :=
  d.notes.flatMap (remark "note") ++ d.help.toList.flatMap (remark "help")

/-- Where the problem is, and the lines to look at. -/
def places (m : LineMap) (file : String) (primary : Span) (d : Diagnostic)
    (excerpts : List Excerpt) : Styled :=
  let p := m.position primary.start
  let lastLine := (excerpts.getLast?.map Excerpt.line).getD 1
  let width := max (toString lastLine).length 2
  let below := if d.notes.isEmpty && d.help.isNone then [] else
    Excerpt.margin width ++ Styled.newline
  Styled.raw "  " ++ Styled.paint (.ofColor .blue) "-->"
    ++ Styled.raw s!" {file}:{p.line}:{p.column}\n"
    ++ Excerpt.margin width ++ Styled.newline ++ Excerpt.block width excerpts ++ below

def styled (m : LineMap) (file : String) (d : Diagnostic) : Styled :=
  let excerpts := Excerpt.ofLabels m d.labels
  let middle := match d.primarySpan? with
    | some primary => if excerpts.isEmpty then [] else places m file primary d excerpts
    | none => []
  d.header ++ middle ++ d.remarks

/-- Several diagnostics, with empty lines between them. -/
def styledAll (source file : String) (ds : List Diagnostic) : Styled :=
  let m := LineMap.ofSource source
  (ds.map (styled m file)).intersperse Styled.newline |>.flatten

/-- The name shown for a source text without a file. -/
def unnamedFile : String := "<source>"

end Diagnostic

end LamScope
