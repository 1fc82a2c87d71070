/-!
# Near misses

A misspelt word is answered with the closest of the words that could have been meant, if one is
close enough. The distance counts the characters to insert, delete or replace; capital and small
ASCII letters count as equal.
-/
namespace LamScope.Suggest

/-- The rest of a row of the distance table. `corner` is the entry above and to the left of the
next one, `left` the one to its left, and `above` holds the entries of the row before. -/
def extendRow (x : Char) (corner left : Nat) : List Char → List Nat → List Nat
  | y :: ys, up :: above =>
      let cost := if x = y then 0 else 1
      let entry := min (min (up + 1) (left + 1)) (corner + cost)
      entry :: extendRow x up entry ys above
  | _, _ => []

/-- The row after `row`, for one character more of the first text. -/
def nextRow (word : List Char) (row : List Nat) (x : Char) : List Nat :=
  match row with
  | [] => []
  | corner :: above => (corner + 1) :: extendRow x corner (corner + 1) word above

/-- Each row holds the distances from the part of the first text read so far to all beginnings of
the second. -/
def distance (a b : List Char) : Nat :=
  (a.foldl (nextRow b) (List.range (b.length + 1))).getLastD 0

def foldCase (s : String) : List Char := s.toList.map Char.toLower

/-- How far off a word may be, by its length in bytes. -/
def threshold (s : String) : Nat :=
  if s.utf8ByteSize ≤ 2 then 1 else if s.utf8ByteSize ≤ 5 then 2 else 3

/-- A cheap test: lengths that differ too much rule a candidate out. -/
def similarLength (name candidate : String) : Bool :=
  name.utf8ByteSize ≤ candidate.utf8ByteSize + threshold name
    && candidate.utf8ByteSize ≤ name.utf8ByteSize + threshold name

/-- The first of the pairs with the least number. -/
def least : List (String × Nat) → Option (String × Nat)
  | [] => none
  | p :: rest =>
      match least rest with
      | some q => if q.2 < p.2 then some q else some p
      | none => some p

/-- The first of the closest candidates, if it is close enough. -/
def closest? (name : String) (candidates : List String) : Option String :=
  let near := candidates.filter (similarLength name)
  let scored := near.map fun c => (c, distance (foldCase name) (foldCase c))
  (least (scored.filter fun p => p.2 ≤ threshold name)).map Prod.fst

def question? (name : String) (candidates : List String) : Option String :=
  (closest? name candidates).map fun c => s!"did you mean `{c}`?"

end LamScope.Suggest
