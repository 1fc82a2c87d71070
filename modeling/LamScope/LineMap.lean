import LamScope.Text.Slice

/-!
# Lines of a source text

A line map keeps the offset at which each line starts, so that an offset is turned into a line
and a column by one binary search. Lines and columns count from one, columns in bytes.
-/
namespace LamScope

structure Position where
  line : Nat
  column : Nat
deriving DecidableEq, Repr, Inhabited

structure LineMap where
  source : List Char
  /-- In increasing order; the first line starts at offset zero. -/
  starts : Array Nat

namespace LineMap

/-- The offsets just after the newlines of a text that begins at `offset`. -/
def startsAfter (offset : Nat) : List Char → List Nat
  | [] => []
  | c :: cs =>
      let next := offset + c.utf8Size
      if c = '\n' then next :: startsAfter next cs else startsAfter next cs

def ofText (cs : List Char) : LineMap where
  source := cs
  starts := (0 :: startsAfter 0 cs).toArray

def ofSource (source : String) : LineMap := ofText source.toList

/-- The last index in `[lo, hi)` whose entry is at most `offset`, if the entry at `lo` is. -/
def lastAtMost (starts : Array Nat) (offset lo hi : Nat) : Nat :=
  if hi ≤ lo + 1 then lo
  else
    let mid := (lo + hi) / 2
    if starts.getD mid 0 ≤ offset then lastAtMost starts offset mid hi
    else lastAtMost starts offset lo mid
termination_by hi - lo

/-- Offsets and columns are 32-bit numbers here: a larger one loses its upper bits. -/
def clip (n : Nat) : Nat := n % UInt32.size

/-- Counts from zero. -/
def indexOf (m : LineMap) (offset : Nat) : Nat := lastAtMost m.starts offset 0 m.starts.size

/-- Where `offset` stands. Past the end of the text the last line goes on. The last offset of all
has no column left on a first line: it gets column zero there. -/
def position (m : LineMap) (offset : Nat) : Position :=
  let i := m.indexOf (clip offset)
  ⟨i + 1, clip (clip offset - m.starts.getD i 0 + 1)⟩

def lineOf (m : LineMap) (offset : Nat) : Nat := m.indexOf (clip offset) + 1

def lineCount (m : LineMap) : Nat := m.starts.size

/-- A line may end in a carriage return, which is not part of its text. -/
def withoutReturn (cs : List Char) : List Char :=
  if cs.getLast? = some '\r' then cs.dropLast else cs

/-- The text of a line without its end. -/
def lineText? (m : LineMap) (line : Nat) : Option (List Char) :=
  if line = 0 then none
  else
    (m.starts[line - 1]?).bind fun start =>
      let stop := match m.starts[line]? with
        | some next => next - 1
        | none => Text.byteLength m.source
      (Text.slice? m.source start stop).map withoutReturn

end LineMap

end LamScope
