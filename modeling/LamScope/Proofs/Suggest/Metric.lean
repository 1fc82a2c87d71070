import LamScope.Proofs.Suggest.EditDistance

/-!
# Distances of texts

The least number of edits is a distance between texts, the Levenshtein distance. Main statement: the
table gives that number, so it is symmetric, zero for equal texts only, never more than on a detour,
and at least the difference of the lengths. It does not matter whether each row of the table is a
new one, or two rows take turns and a row is filled over the entries of the one before the last.
-/
namespace LamScope.Suggest

variable {m n : Nat} {a b c : List Char}

theorem Edit.symm (h : Edit a b) : Edit b a := by
  induction h with
  | insert c cs => exact .delete c cs
  | delete c cs => exact .insert c cs
  | replace c d cs => exact .replace d c cs
  | behind c _ ih => exact .behind c ih

theorem Edits.trans (hab : Edits m a b) (hbc : Edits n b c) : Edits (m + n) a c := by
  induction hbc with
  | none => exact hab
  | more _ hedit ih => exact .more (ih hab) hedit

theorem Edits.symm (h : Edits n a b) : Edits n b a := by
  induction h with
  | none cs => exact .none cs
  | @more n a b c _ hedit ih =>
      have hfirst : Edits 1 c b := .more (.none c) hedit.symm
      rw [Nat.add_comm]
      exact hfirst.trans ih

theorem Edits.eq_of_zero (h : Edits 0 a b) : a = b := by
  cases h
  rfl

/-- The number for two texts is the least number of edits between them, and thereby a distance. -/
structure IsEditDistance (d : List Char → List Char → Nat) : Prop where
  isLeast : ∀ a b, IsLeast {n | Edits n a b} (d a b)
  comm : ∀ a b, d a b = d b a
  eq_zero_iff : ∀ a b, d a b = 0 ↔ a = b
  triangle : ∀ a b c, d a c ≤ d a b + d b c
  length_le : ∀ a b, a.length ≤ b.length + d a b ∧ b.length ≤ a.length + d a b

/-- Whatever gives the least number of edits is a distance. -/
theorem isEditDistance_of_isLeast {d : List Char → List Char → Nat}
    (h : ∀ a b, IsLeast {n | Edits n a b} (d a b)) : IsEditDistance d where
  isLeast := h
  comm a b := by
    have hle (a b : List Char) : d a b ≤ d b a := (h a b).2 (h b a).1.symm
    exact le_antisymm (hle a b) (hle b a)
  eq_zero_iff a b := by
    constructor
    · intro hzero
      have hedits : Edits (d a b) a b := (h a b).1
      rw [hzero] at hedits
      exact hedits.eq_of_zero
    · rintro rfl
      exact Nat.le_zero.mp ((h a a).2 (.none a))
  triangle a b c := (h a c).2 ((h a b).1.trans (h b c).1)
  length_le a b := (h a b).1.length_le

/-! ### Two rows that take turns -/

/-- The row filled last, and the row to be filled, which holds older entries. -/
structure Rows where
  above : Array Nat
  current : Array Nat

namespace Rows

/-- Fills in the entry for `j + 1` characters of the second text, the last of which is `y`. -/
def write (x y : Char) (j : Nat) (t : Rows) : Rows :=
  let cost := if x = y then 0 else 1
  let entry :=
    min (min (t.above.getD (j + 1) 0 + 1) (t.current.getD j 0 + 1)) (t.above.getD j 0 + cost)
  { t with current := t.current.setIfInBounds (j + 1) entry }

def writeAll (x : Char) : Nat → List Char → Rows → Rows
  | _, [], t => t
  | j, y :: rest, t => writeAll x (j + 1) rest (t.write x y j)

/-- Fills the row for `i + 1` characters of the first text, the last of which is `x`. -/
def next (word : List Char) (i : Nat) (x : Char) (t : Rows) : Rows :=
  let filled := writeAll x 0 word { t with current := t.current.setIfInBounds 0 (i + 1) }
  ⟨filled.current, filled.above⟩

def fill (word : List Char) : Nat → List Char → Rows → Rows
  | _, [], t => t
  | i, x :: rest, t => fill word (i + 1) rest (next word i x t)

/-- The distance, with the memory of two rows. -/
def distance (a b : List Char) : Nat :=
  let t := fill b 0 a ⟨Array.range (b.length + 1), Array.replicate (b.length + 1) 0⟩
  t.above.getD b.length 0

/-- The row above is that of `p`, and the other one is as long. -/
structure Above (word p : List Char) (t : Rows) : Prop where
  above : t.above.toList = row word p
  size : t.current.size = word.length + 1

/-- The current row is that of `x :: p` up to the entry for `j` characters of the word. -/
structure Filled (word p : List Char) (x : Char) (j : Nat) (t : Rows) : Prop
    extends Above word p t where
  current : ∀ i ≤ j, t.current[i]? = (row word (x :: p))[i]?

variable {word p rest : List Char} {x y : Char} {j : Nat} {t : Rows}

theorem getD_eq_fewest {entries : Array Nat} (hj : j ≤ word.length)
    (h : entries[j]? = (row word p)[j]?) : entries.getD j 0 = fewest p (word.take j).reverse := by
  rw [Array.getD_eq_getD_getElem?, h, getElem?_row word p hj, Option.getD_some]

theorem Above.getD_eq (h : Above word p t) (hj : j ≤ word.length) :
    t.above.getD j 0 = fewest p (word.take j).reverse := by
  apply getD_eq_fewest hj
  rw [← h.above, Array.getElem?_toList]

theorem Filled.write (h : Filled word p x j t) (hy : word[j]? = some y) :
    Filled word p x (j + 1) (t.write x y j) where
  above := h.above
  size := by
    rw [Rows.write, Array.size_setIfInBounds, h.size]
  current := by
    obtain ⟨hj, -⟩ := List.getElem?_eq_some_iff.mp hy
    have htake : (word.take (j + 1)).reverse = y :: (word.take j).reverse := by
      rw [List.take_add_one, hy, List.reverse_append]
      rfl
    intro i hi
    -- Only the next entry is written, from three that are in place.
    rcases Nat.lt_or_eq_of_le hi with hlt | rfl
    · rw [Rows.write, Array.getElem?_setIfInBounds_ne (Nat.ne_of_gt hlt)]
      exact h.current i (Nat.le_of_lt_succ hlt)
    · have hlt : j + 1 < t.current.size := by
        rw [h.size]
        omega
      rw [Rows.write, Array.getElem?_setIfInBounds_self_of_lt hlt, getElem?_row word _ hj,
        h.getD_eq hj, h.getD_eq hj.le, getD_eq_fewest hj.le (h.current j le_rfl), htake,
        fewest_cons]

theorem Filled.writeAll (h : Filled word p x j t) (hrest : word.drop j = rest) :
    Filled word p x word.length (Rows.writeAll x j rest t) := by
  induction rest generalizing j t with
  | nil =>
      have hj : word.length ≤ j := List.drop_eq_nil_iff.mp hrest
      exact ⟨h.toAbove, fun i hi => h.current i (hi.trans hj)⟩
  | cons y rest ih =>
      have hy : word[j]? = some y := by
        rw [← List.head?_drop, hrest]
        rfl
      refine ih (h.write hy) ?_
      rw [← List.tail_drop, hrest]
      rfl

theorem Filled.toList_eq (h : Filled word p x word.length t) :
    t.current.toList = row word (x :: p) := by
  apply List.ext_getElem?
  intro i
  rw [Array.getElem?_toList]
  rcases Nat.lt_or_ge word.length i with hlt | hle
  · rw [Array.getElem?_eq_none (h.size.trans_le hlt),
      List.getElem?_eq_none ((length_row word _).trans_le hlt)]
  · exact h.current i hle

/-- The rows change places when the current one is filled. -/
theorem Above.next (h : Above word p t) (x : Char) :
    Above word (x :: p) (Rows.next word p.length x t) := by
  have hfirst :
      Filled word p x 0 { t with current := t.current.setIfInBounds 0 (p.length + 1) } := by
    refine ⟨⟨h.above, by rw [Array.size_setIfInBounds, h.size]⟩, ?_⟩
    intro i hi
    obtain rfl := Nat.le_zero.mp hi
    have hlt : 0 < t.current.size := by
      rw [h.size]
      omega
    rw [Array.getElem?_setIfInBounds_self_of_lt hlt, getElem?_row word _ (Nat.zero_le _)]
    simp
  have hfilled := hfirst.writeAll (List.drop_zero)
  refine ⟨hfilled.toList_eq, ?_⟩
  rw [Rows.next, ← Array.length_toList, hfilled.above, length_row]

theorem Above.fill (h : Above word p t) (a : List Char) :
    Above word (a.reverse ++ p) (Rows.fill word p.length a t) := by
  induction a generalizing p t with
  | nil => exact h
  | cons x a ih =>
      rw [List.reverse_cons, List.append_assoc]
      exact ih (h.next x)

theorem distance_eq (a b : List Char) : distance a b = Suggest.distance a b := by
  have hstart : Above b [] ⟨Array.range (b.length + 1), Array.replicate (b.length + 1) 0⟩ := by
    refine ⟨?_, Array.size_replicate⟩
    rw [row_nil, Array.toList_range]
  have hlast := (hstart.fill a).getD_eq le_rfl
  rw [List.append_nil, List.take_length] at hlast
  rw [distance_eq_fewest]
  exact hlast

end Rows

/-- The table gives the distance of texts, in new rows or in two rows that take turns. -/
theorem isEditDistance_distance : IsEditDistance distance ∧ Rows.distance = distance := by
  refine ⟨isEditDistance_of_isLeast isLeast_distance, ?_⟩
  funext a b
  exact Rows.distance_eq a b

end LamScope.Suggest
