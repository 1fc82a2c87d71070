import LamScope.LineMap
import LamScope.Token

/-!
# Scanning

A source text is cut into pieces from the left, each as long as its kind allows: gaps, tokens,
and faults. A character that begins nothing is a fault of its own and is stepped over. A quote
that is never closed takes the rest of the text with it. `Scan.ofSource` keeps what was found
before the scan gave up, which it does after `maxFaults` faults.
-/
namespace LamScope

/-- Why a piece of text is no token. -/
inductive ScanFault.Cause where
  | unexpectedCharacter (c : Char)
  | unterminatedString
  | malformedNumber
deriving DecidableEq, Repr

structure ScanFault where
  cause : ScanFault.Cause
  line : Nat
  span : Span
deriving DecidableEq, Repr

namespace ScanFault.Cause

def message : Cause → String
  | unexpectedCharacter c => s!"Unexpected character '{c}'"
  | unterminatedString => "Unterminated string"
  | malformedNumber => "Invalid number"

def hint? : Cause → Option String
  | unterminatedString => some "Add a closing '\"'"
  | _ => none

end ScanFault.Cause

namespace Scan

def isBlank (c : Char) : Bool :=
  c == ' ' || c == '\t' || c == '\r' || c == '\n' || c == '\x0c'

/-- ASCII letters and the underscore. -/
def isNameStart (c : Char) : Bool := c.isAlpha || c == '_'

def isNamePart (c : Char) : Bool := c.isAlphanum || c == '_'

/-- Blanks, a comment, a token, or what is wrong instead of one. -/
inductive Piece where
  | gap
  | token (kind : TokenKind)
  | fault (cause : ScanFault.Cause)

/-- The first piece of a text, the characters it takes, and the text after it. -/
structure Cut where
  piece : Piece
  taken : List Char
  rest : List Char

/-- A whole name is a keyword or not; a keyword at the start of a longer name does not count. -/
def wordKind (cs : List Char) : TokenKind :=
  match Keyword.ofText? (String.ofList cs) with
  | some k => .keyword k
  | none => .name

/-- Digits, and a fraction if a digit follows the point. -/
def cutNumber (cs : List Char) : List Char × List Char :=
  let whole := cs.takeWhile Char.isDigit
  let rest := cs.dropWhile Char.isDigit
  match rest with
  | '.' :: after =>
      let fraction := after.takeWhile Char.isDigit
      if fraction.isEmpty then (whole, rest)
      else (whole ++ '.' :: fraction, after.dropWhile Char.isDigit)
  | _ => (whole, rest)

def numberPiece (cs : List Char) : Piece :=
  match Double.ofDecimal? cs with
  | some value => .token (.number value)
  | none => .fault .malformedNumber

/-- The first piece of the text that begins with `c` and goes on with `cs`. -/
def cut (c : Char) (cs : List Char) : Cut :=
  if isBlank c then ⟨.gap, c :: cs.takeWhile isBlank, cs.dropWhile isBlank⟩
  else if isNameStart c then
    let word := c :: cs.takeWhile isNamePart
    ⟨.token (wordKind word), word, cs.dropWhile isNamePart⟩
  else if c.isDigit then
    let (taken, rest) := cutNumber cs
    ⟨numberPiece (c :: taken), c :: taken, rest⟩
  else if c = '"' then
    let contents := cs.takeWhile (· != '"')
    match cs.dropWhile (· != '"') with
    | quote :: rest => ⟨.token (.string (String.ofList contents)), c :: contents ++ [quote], rest⟩
    | [] => ⟨.fault .unterminatedString, c :: cs, []⟩
  else if c = '/' ∧ cs.head? = some '/' then
    ⟨.gap, c :: cs.takeWhile (· != '\n'), cs.dropWhile (· != '\n')⟩
  else
    match Symbol.withEqual? c, cs with
    | some s, '=' :: rest => ⟨.token (.symbol s), [c, '='], rest⟩
    | _, _ =>
        match Symbol.single? c with
        | some s => ⟨.token (.symbol s), [c], cs⟩
        | none => ⟨.fault (.unexpectedCharacter c), [c], cs⟩

theorem cutNumber_append (cs : List Char) : (cutNumber cs).1 ++ (cutNumber cs).2 = cs := by
  have whole := List.takeWhile_append_dropWhile (p := Char.isDigit) (l := cs)
  unfold cutNumber
  dsimp only
  split
  · rename_i after h
    split
    · exact whole
    · rw [h] at whole
      simp [List.append_assoc, List.takeWhile_append_dropWhile, whole]
  · exact whole

/-- Nothing is lost and nothing is added. -/
theorem cut_append (c : Char) (cs : List Char) :
    (cut c cs).taken ++ (cut c cs).rest = c :: cs := by
  unfold cut
  split
  · simp [List.takeWhile_append_dropWhile]
  split
  · simp [List.takeWhile_append_dropWhile]
  split
  · simp [cutNumber_append]
  split
  · have all := List.takeWhile_append_dropWhile (p := (· != '"')) (l := cs)
    dsimp only
    split
    · rename_i h
      rw [h] at all
      simp [all]
    · simp
  split
  · simp [List.takeWhile_append_dropWhile]
  split
  · simp
  · split <;> simp

theorem cut_taken_ne_nil (c : Char) (cs : List Char) : (cut c cs).taken ≠ [] := by
  unfold cut
  repeat' split
  all_goals simp

theorem cut_rest_length (c : Char) (cs : List Char) :
    (cut c cs).rest.length < (c :: cs).length := by
  have taken := List.length_pos_iff.2 (cut_taken_ne_nil c cs)
  have all := congrArg List.length (cut_append c cs)
  rw [List.length_append] at all
  omega

/-- A place in a text with these lines. -/
structure Place where
  lines : LineMap
  offset : Nat

namespace Place

def start (source : List Char) : Place := ⟨.ofText source, 0⟩

def line (p : Place) : Nat := p.lines.lineOf p.offset

/-- The place after some text. -/
def past (p : Place) (cs : List Char) : Place :=
  { p with offset := p.offset + Text.byteLength cs }

end Place

/-- What scanning finds: everything but the gaps. -/
inductive Item where
  | token (t : Token)
  | fault (f : ScanFault)

namespace Item

def token? : Item → Option Token
  | token t => some t
  | fault _ => none

def fault? : Item → Option ScanFault
  | token _ => none
  | fault f => some f

end Item

/-- A piece at its place. -/
def Cut.item? (k : Cut) (p : Place) : Option Item :=
  let span : Span := ⟨p.offset, (p.past k.taken).offset⟩
  match k.piece with
  | .gap => none
  | .token kind => some (.token ⟨⟨String.ofList k.taken, p.line, span⟩, kind⟩)
  | .fault cause => some (.fault ⟨cause, p.line, span⟩)

/-- Everything found in a text that begins at `p`. -/
def items (p : Place) : List Char → List Item
  | [] => []
  | c :: cs =>
      let k := cut c cs
      (k.item? p).toList ++ items (p.past k.taken) k.rest
termination_by cs => cs.length
decreasing_by exact cut_rest_length c cs

/-- Everything found in a source. -/
def found (source : List Char) : List Item := items (.start source) source

/-- Up to and with the fault number `n`. -/
def untilFault : Nat → List Item → List Item
  | 0, _ => []
  | _, [] => []
  | n + 1, .token t :: rest => .token t :: untilFault (n + 1) rest
  | n + 1, .fault f :: rest => .fault f :: untilFault n rest

def maxFaults : Nat := 20

end Scan

/-- The tokens of a text, the last of which marks its end, and the faults found on the way. -/
structure Scan where
  tokens : List Token
  faults : List ScanFault

namespace Scan

def endToken (source : List Char) : Token :=
  let p := (Place.start source).past source
  ⟨⟨"", p.line, ⟨p.offset, p.offset⟩⟩, .endOfFile⟩

def ofSource (source : String) : Scan :=
  let kept := untilFault maxFaults (found source.toList)
  { tokens := kept.filterMap Item.token? ++ [endToken source.toList]
    faults := kept.filterMap Item.fault? }

/-- No faults. -/
def isClean (s : Scan) : Bool := s.faults.isEmpty

end Scan

end LamScope
