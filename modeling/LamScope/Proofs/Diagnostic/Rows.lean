import LamScope.Proofs.Diagnostic.Excerpts

/-!
# Rows of a diagnostic

The text of a diagnostic is a list of rows: its title, the place of the problem, source lines with
the marks and messages under each of them, and remarks. Main statement: the text is made of these
rows, in colours or without.
-/
namespace LamScope

inductive Row where
  | title (severity : Severity) (code : Option String) (s : String)
  /-- Where the problem is. -/
  | place (file : String) (p : Position)
  /-- A margin with nothing beside it. -/
  | empty
  | source (line : Nat) (text : List Char)
  /-- Dots for lines that are left out. -/
  | gap
  /-- Marks under a source line, with a message beside them or without. -/
  | marks (row : List Char) (beside : Option (Role × String))
  /-- A message under the marks, which starts at a column. -/
  | message (column : Nat) (role : Role) (s : String)
  | remark (kind s : String)
deriving DecidableEq, Repr

namespace Row

def styled (width : Nat) : Row → Styled
  | title severity code s => Diagnostic.header ⟨severity, code, s, [], [], none⟩
  | place file p =>
      Styled.raw "  " ++ Styled.paint (.ofColor .blue) "-->"
        ++ Styled.raw s!" {file}:{p.line}:{p.column}\n"
  | empty => Excerpt.margin width ++ Styled.newline
  | source line text =>
      Styled.paint (.boldOf .blue) (Text.padLeft (width + 1) (toString line))
        ++ Styled.raw " " ++ Excerpt.bar ++ Styled.raw (" " ++ String.ofList text ++ "\n")
  | gap =>
      Styled.raw (Text.spaces width ++ " ") ++ Styled.paint (.ofColor .blue) "..."
        ++ Styled.newline
  | marks row none =>
      Excerpt.margin width ++ Styled.raw " " ++ Excerpt.styledRow row ++ Styled.newline
  | marks row (some (role, s)) =>
      Excerpt.margin width ++ Styled.raw " " ++ Excerpt.styledRow row ++ Styled.raw " "
        ++ Styled.paint (Excerpt.messageStyle role) s ++ Styled.newline
  | message column role s =>
      Excerpt.margin width ++ Styled.raw (" " ++ Text.spaces (column - 1))
        ++ Styled.paint (Excerpt.messageStyle role) s ++ Styled.newline
  | remark kind s => Diagnostic.remark kind s

/-- What stands before the columns of a source line in the rows beneath it. -/
def gutter (width : Nat) : List Char := (Text.spaces (width + 1) ++ " | ").toList

/-- The row as it is written without colours. -/
def plain (width : Nat) : Row → List Char
  | title severity code s =>
      (severity.word ++ code.elim "" (fun c => "[" ++ c ++ "]") ++ ": " ++ s ++ "\n").toList
  | place file p =>
      ("  --> " ++ file ++ ":" ++ toString p.line ++ ":" ++ toString p.column ++ "\n").toList
  | empty => (Text.spaces (width + 1) ++ " |\n").toList
  | source line text =>
      (Text.padLeft (width + 1) (toString line) ++ " | ").toList ++ text ++ ['\n']
  | gap => (Text.spaces width ++ " ...\n").toList
  | marks row beside =>
      gutter width ++ row ++ beside.elim [] (fun p => ' ' :: p.2.toList) ++ ['\n']
  | message column _ s => gutter width ++ (Text.spaces (column - 1) ++ s ++ "\n").toList
  | remark kind s => ("    = " ++ kind ++ ": " ++ s ++ "\n").toList

def place? : Row → Option Position
  | place _ p => some p
  | _ => none

/-- The number and the text of the source line that a row shows. -/
def source? : Row → Option (Nat × List Char)
  | source line text => some (line, text)
  | _ => none

/-- Rows that belong to the source line above them. -/
def isUnder : Row → Bool
  | marks .. | message .. => true
  | _ => false

/-- Rows above and below the source lines, the place apart. -/
def isOuter : Row → Bool
  | title .. | empty | remark .. => true
  | _ => false

def sources (rows : List Row) : List (Nat × List Char) := rows.filterMap source?

theorem mem_sources {rows : List Row} {line : Nat} {text : List Char} :
    (line, text) ∈ sources rows ↔ .source line text ∈ rows := by
  refine ⟨fun h => ?_, fun h => List.mem_filterMap.mpr ⟨_, h, rfl⟩⟩
  obtain ⟨r, hr, hsource⟩ := List.mem_filterMap.mp h
  cases r <;> cases hsource
  exact hr

theorem sources_append (rows rows' : List Row) :
    sources (rows ++ rows') = sources rows ++ sources rows' := List.filterMap_append

/-- How wide line numbers may get. -/
def width (rows : List Row) : Nat :=
  max (toString (((sources rows).getLast?.map Prod.fst).getD 1)).length 2

/-- The rows one below the other. -/
def text (rows : List Row) : Styled := rows.flatMap (styled (width rows))

/-- The rows under a source line: one message stands beside the marks, of several each has a row
of its own. -/
def under (row : List Char) : List (Nat × Role × String) → List Row
  | [(_, role, s)] => [.marks row (some (role, s))]
  | messages => .marks row none :: messages.map fun (column, role, s) => .message column role s

theorem under_of_length_ne_one (row : List Char) {messages : List (Nat × Role × String)}
    (h : messages.length ≠ 1) :
    under row messages =
      .marks row none :: messages.map fun (column, role, s) => .message column role s := by
  unfold under
  split
  · exact (h rfl).elim
  · rfl

theorem isUnder_of_isOuter {r : Row} (h : r.isOuter = true) : r.isUnder = false := by
  cases r <;> first | rfl | cases h

theorem isUnder_of_mem_under {row : List Char} {messages : List (Nat × Role × String)} {r : Row}
    (h : r ∈ under row messages) : r.isUnder = true := by
  unfold under at h
  split at h
  · obtain rfl := List.mem_singleton.mp h
    rfl
  · rcases List.mem_cons.mp h with rfl | h
    · rfl
    · obtain ⟨_, -, rfl⟩ := List.mem_map.mp h
      rfl

end Row

namespace Excerpt

def beneath (e : Excerpt) : List Row :=
  if e.row.isEmpty then [] else Row.under e.row e.messages.reverse

/-- The source line and the rows under it. -/
def shown (e : Excerpt) : List Row := .source e.line e.text :: e.beneath

/-- Excerpts one below the other. -/
def shownAll : List Excerpt → List Row
  | [] => []
  | [e] => e.shown
  | e :: f :: rest =>
      e.shown ++ (if e.line + 1 < f.line then [.gap] else []) ++ shownAll (f :: rest)

end Excerpt

namespace Diagnostic

def remarkRows (d : Diagnostic) : List Row :=
  d.notes.map (.remark "note") ++ d.help.toList.map (.remark "help")

/-- A margin between the source lines and the remarks. -/
def lastMargin (d : Diagnostic) : List Row :=
  if d.notes.isEmpty && d.help.isNone then [] else [.empty]

def placeRows (m : LineMap) (file : String) (primary : Span) (d : Diagnostic)
    (excerpts : List Excerpt) : List Row :=
  .place file (m.position primary.start) :: .empty :: Excerpt.shownAll excerpts ++ d.lastMargin

def middleRows (m : LineMap) (file : String) (d : Diagnostic) : List Row :=
  let excerpts := Excerpt.ofLabels m d.labels
  match d.primarySpan? with
  | some primary => if excerpts.isEmpty then [] else d.placeRows m file primary excerpts
  | none => []

def rows (m : LineMap) (file : String) (d : Diagnostic) : List Row :=
  .title d.severity d.code d.message :: (d.middleRows m file ++ d.remarkRows)

end Diagnostic

namespace Excerpt

theorem plain_styledRow (row : List Char) : Styled.plain (styledRow row) = row := by
  induction row with
  | nil => rfl
  | cons c cs ih =>
      rw [styledRow]
      split
      · rename_i chunk rest hrest
        rw [hrest] at ih
        split
        · exact congrArg (List.cons c) ih
        · exact congrArg (List.cons c) ih
      · rename_i hrest
        rw [hrest] at ih
        exact congrArg (List.cons c) ih

theorem markRows_eq (width : Nat) (e : Excerpt) :
    e.markRows width = e.beneath.flatMap (Row.styled width) := by
  unfold markRows beneath
  dsimp only
  split
  · rfl
  · split
    · rename_i hmessages
      simp [hmessages, Row.under, Row.styled]
    · rename_i hmessages
      simp [hmessages, Row.under, Row.styled]
    · rename_i hnil hone
      have hlength : e.messages.reverse.length ≠ 1 := by
        intro h
        obtain ⟨⟨column, role, s⟩, hs⟩ := List.length_eq_one_iff.mp h
        exact hone column role s (List.reverse_eq_iff.mp hs)
      rw [Row.under_of_length_ne_one _ hlength, List.flatMap_cons, List.flatMap_map]
      rfl

theorem rows_eq (width : Nat) (e : Excerpt) :
    e.rows width = e.shown.flatMap (Row.styled width) := by
  rw [rows, markRows_eq, shown, List.flatMap_cons]
  rfl

theorem block_eq (width : Nat) (es : List Excerpt) :
    block width es = (shownAll es).flatMap (Row.styled width) := by
  induction es with
  | nil => rfl
  | cons e es ih =>
      cases es with
      | nil => exact rows_eq width e
      | cons f es =>
          rw [block, shownAll, ih, rows_eq, List.flatMap_append, List.flatMap_append]
          split <;> simp [Row.styled]

theorem isUnder_of_mem_beneath {e : Excerpt} {r : Row} (h : r ∈ e.beneath) : r.isUnder = true := by
  unfold beneath at h
  split at h
  · cases h
  · exact Row.isUnder_of_mem_under h

theorem filterMap_beneath {α : Type} {f : Row → Option α} (hf : ∀ r, r.isUnder = true → f r = none)
    (e : Excerpt) : e.beneath.filterMap f = [] :=
  List.filterMap_eq_nil_iff.mpr fun r hr => hf r (isUnder_of_mem_beneath hr)

theorem sources_shownAll (es : List Excerpt) :
    Row.sources (shownAll es) = es.map fun e => (e.line, e.text) := by
  have hshown (e : Excerpt) : Row.sources e.shown = [(e.line, e.text)] := by
    show (e.line, e.text) :: e.beneath.filterMap Row.source? = _
    rw [filterMap_beneath fun r hr => by cases r <;> first | rfl | cases hr]
  induction es with
  | nil => rfl
  | cons e es ih =>
      cases es with
      | nil => exact hshown e
      | cons f es =>
          have hgap : Row.sources (if e.line + 1 < f.line then [.gap] else []) = [] := by
            split <;> rfl
          rw [shownAll, Row.sources_append, Row.sources_append, hshown, hgap, ih]
          rfl

end Excerpt

namespace Styled

@[simp] theorem plain_append (t u : Styled) : plain (t ++ u) = plain t ++ plain u :=
  List.flatMap_append

@[simp] theorem plain_raw (s : String) : plain (raw s) = s.toList := List.append_nil _

@[simp] theorem plain_paint (style : Style) (s : String) : plain (paint style s) = s.toList :=
  List.append_nil _

@[simp] theorem plain_newline : plain newline = ['\n'] := rfl

end Styled

namespace Row

theorem plain_margin (width : Nat) :
    Styled.plain (Excerpt.margin width) = (Text.spaces (width + 1) ++ " |").toList := by
  simp [Excerpt.margin, Excerpt.bar]

theorem plain_styled (width : Nat) (r : Row) : Styled.plain (r.styled width) = r.plain width := by
  cases r with
  | title severity code s => cases code <;> simp [styled, plain, Diagnostic.header]
  | place file p => simp [styled, plain, toString]
  | marks row beside =>
      cases beside <;> simp [styled, plain, gutter, plain_margin, Excerpt.plain_styledRow]
  | remark kind s => simp [styled, plain, Diagnostic.remark]
  | _ => simp [styled, plain, gutter, Excerpt.bar, plain_margin]

/-- Without colours the text is that of its rows. -/
theorem plain_text (rows : List Row) :
    Styled.plain (text rows) = rows.flatMap (plain (width rows)) := by
  unfold text Styled.plain
  rw [List.flatMap_assoc]
  exact congrArg (List.flatMap · rows) (funext fun r => plain_styled _ r)

end Row

namespace Diagnostic
variable (m : LineMap) (file : String) (d : Diagnostic)

theorem primarySpan?_eq_none : d.primarySpan? = none ↔ d.labels = [] := by
  unfold primarySpan?
  cases d.labels with
  | nil => simp
  | cons l labels => cases (l :: labels).find? fun l => l.role == .primary <;> simp

variable {m file d} in
theorem middleRows_of_eq_nil (h : Excerpt.ofLabels m d.labels = []) : d.middleRows m file = [] := by
  unfold middleRows
  rw [h]
  cases d.primarySpan? <;> rfl

variable {m d} in
theorem exists_primarySpan? (h : Excerpt.ofLabels m d.labels ≠ []) :
    ∃ primary, d.primarySpan? = some primary := by
  refine Option.ne_none_iff_exists'.mp fun hnone => h ?_
  rw [d.primarySpan?_eq_none.mp hnone]
  rfl

variable {m d} in
theorem middleRows_of_ne_nil {primary : Span} (hprimary : d.primarySpan? = some primary)
    (h : Excerpt.ofLabels m d.labels ≠ []) :
    d.middleRows m file = d.placeRows m file primary (Excerpt.ofLabels m d.labels) := by
  unfold middleRows
  dsimp only
  rw [hprimary]
  exact if_neg (by simpa using h)

theorem isOuter_of_mem_remarkRows {r : Row} (h : r ∈ d.remarkRows) : r.isOuter = true := by
  rcases List.mem_append.mp h with h | h
  · obtain ⟨_, -, rfl⟩ := List.mem_map.mp h
    rfl
  · obtain ⟨_, -, rfl⟩ := List.mem_map.mp h
    rfl

theorem isOuter_of_mem_lastMargin {r : Row} (h : r ∈ d.lastMargin) : r.isOuter = true := by
  unfold lastMargin at h
  split at h
  · cases h
  · obtain rfl := List.mem_singleton.mp h
    rfl

/-- The place shown, if labels are shown. -/
def place? : Option Position :=
  if (Excerpt.ofLabels m d.labels).isEmpty then none
  else d.primarySpan?.map fun primary => m.position primary.start

/-- What is picked of the place, the source lines and the rows under them. -/
theorem filterMap_rows {α : Type} {f : Row → Option α} (hf : ∀ r, r.isOuter = true → f r = none) :
    (d.rows m file).filterMap f = ((d.place? m).bind fun p => f (.place file p)).toList ++
      (Excerpt.shownAll (Excerpt.ofLabels m d.labels)).filterMap f := by
  have hremarks : d.remarkRows.filterMap f = [] :=
    List.filterMap_eq_nil_iff.mpr fun r hr => hf r (d.isOuter_of_mem_remarkRows hr)
  rw [rows, List.filterMap_cons_none (hf _ rfl), List.filterMap_append, hremarks, List.append_nil]
  by_cases h : Excerpt.ofLabels m d.labels = []
  · rw [middleRows_of_eq_nil h, place?, h]
    rfl
  · obtain ⟨primary, hprimary⟩ := exists_primarySpan? h
    have hbelow : d.lastMargin.filterMap f = [] :=
      List.filterMap_eq_nil_iff.mpr fun r hr => hf r (d.isOuter_of_mem_lastMargin hr)
    have hplace : d.place? m = some (m.position primary.start) := by
      rw [place?, hprimary, if_neg (by simpa using h)]
      rfl
    rw [middleRows_of_ne_nil file hprimary h, placeRows, List.filterMap_append, hbelow,
      List.append_nil, hplace, List.filterMap_cons, List.filterMap_cons_none (hf _ rfl)]
    dsimp only [Option.bind_some]
    cases f (.place file (m.position primary.start)) <;> rfl

theorem sources_rows : Row.sources (d.rows m file) =
    (Excerpt.ofLabels m d.labels).map fun e => (e.line, e.text) := by
  have hpick := filterMap_rows (f := Row.source?) m file d fun r hr => by
    cases r <;> first | rfl | cases hr
  have hplace : ((d.place? m).bind fun p => Row.source? (.place file p)) = none := by
    cases d.place? m <;> rfl
  rw [hplace] at hpick
  exact hpick.trans (Excerpt.sources_shownAll _)

theorem lines_rows : (Row.sources (d.rows m file)).map Prod.fst =
    (Excerpt.ofLabels m d.labels).map Excerpt.line := by
  rw [sources_rows, List.map_map]
  rfl

theorem flatMap_rows (width : Nat) :
    (d.rows m file).flatMap (Row.styled width) =
      d.header ++ (d.middleRows m file).flatMap (Row.styled width) ++ d.remarks := by
  have hremarks : d.remarkRows.flatMap (Row.styled width) = d.remarks := by
    rw [remarkRows, List.flatMap_append, List.flatMap_map, List.flatMap_map]
    rfl
  rw [rows, List.flatMap_cons, List.flatMap_append, hremarks, List.append_assoc]
  rfl

theorem flatMap_placeRows (primary : Span) (es : List Excerpt) :
    (d.placeRows m file primary es).flatMap
        (Row.styled (max (toString ((es.getLast?.map Excerpt.line).getD 1)).length 2)) =
      d.places m file primary es := by
  unfold placeRows places lastMargin
  dsimp only
  rw [List.cons_append, List.flatMap_cons, List.cons_append, List.flatMap_cons,
    List.flatMap_append, ← Excerpt.block_eq]
  split <;> simp [Row.styled]

/-- The text of a diagnostic is made of its rows. -/
theorem styled_eq_text : d.styled m file = Row.text (d.rows m file) := by
  rw [Row.text, flatMap_rows]
  unfold styled
  dsimp only
  by_cases h : Excerpt.ofLabels m d.labels = []
  · rw [middleRows_of_eq_nil h, h]
    cases d.primarySpan? <;> rfl
  · obtain ⟨primary, hprimary⟩ := exists_primarySpan? h
    have hwidth : Row.width (d.rows m file) = max (toString
        (((Excerpt.ofLabels m d.labels).getLast?.map Excerpt.line).getD 1)).length 2 := by
      rw [Row.width, sources_rows, List.getLast?_map, Option.map_map]
      rfl
    rw [middleRows_of_ne_nil file hprimary h, hprimary, hwidth, flatMap_placeRows]
    dsimp only
    rw [if_neg (by simpa using h)]

theorem render_styled_plain : (Styled.render false (d.styled m file)).toList =
    (d.rows m file).flatMap (Row.plain (Row.width (d.rows m file))) := by
  rw [← Row.plain_text, ← styled_eq_text]
  exact String.toList_ofList

/-- A source line is shown if it is that of an excerpt. -/
theorem source_mem_rows {line : Nat} {text : List Char} : .source line text ∈ d.rows m file ↔
    ∃ e ∈ Excerpt.ofLabels m d.labels, e.line = line ∧ e.text = text := by
  rw [← Row.mem_sources, sources_rows, List.mem_map]
  simp

end Diagnostic

end LamScope
