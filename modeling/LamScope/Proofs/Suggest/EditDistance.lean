import LamScope.Suggest
import Mathlib.Order.Bounds.Basic

/-!
# Edit distances

An edit inserts, deletes or replaces one character. Main statement: the distance of two texts is the
least number of edits in a row that turn the one into the other.

A table of distances is filled row by row, each row for one character more of the first text. Its
entries are the numbers of edits between all beginnings of the two texts, so they are described by
beginnings with their last characters first, where the next character stands at the front.
-/
namespace LamScope.Suggest

/-- One character is inserted, deleted or replaced, at the front of a text or further behind. -/
inductive Edit : List Char → List Char → Prop
  | insert (c : Char) (cs : List Char) : Edit cs (c :: cs)
  | delete (c : Char) (cs : List Char) : Edit (c :: cs) cs
  | replace (c d : Char) (cs : List Char) : Edit (c :: cs) (d :: cs)
  | behind (c : Char) {a b : List Char} : Edit a b → Edit (c :: a) (c :: b)

/-- So many edits in a row turn the first text into the second. -/
inductive Edits : Nat → List Char → List Char → Prop
  | none (cs : List Char) : Edits 0 cs cs
  | more {n : Nat} {a b c : List Char} : Edits n a b → Edit b c → Edits (n + 1) a c

variable {n : Nat} {a b c : List Char}

theorem Edit.append (h : Edit a b) (cs : List Char) : Edit (a ++ cs) (b ++ cs) := by
  induction h with
  | insert c a => exact .insert c (a ++ cs)
  | delete c a => exact .delete c (a ++ cs)
  | replace c d a => exact .replace c d (a ++ cs)
  | behind c _ ih => exact .behind c ih

theorem Edit.behindAll (h : Edit a b) (cs : List Char) : Edit (cs ++ a) (cs ++ b) := by
  induction cs with
  | nil => exact h
  | cons c cs ih => exact .behind c ih

theorem Edit.reverse (h : Edit a b) : Edit a.reverse b.reverse := by
  induction h with
  | insert c cs =>
      have hlast := (Edit.insert c []).behindAll cs.reverse
      simpa using hlast
  | delete c cs =>
      have hlast := (Edit.delete c []).behindAll cs.reverse
      simpa using hlast
  | replace c d cs =>
      have hlast := (Edit.replace c d []).behindAll cs.reverse
      simpa using hlast
  | behind c _ ih =>
      have hfront := ih.append [c]
      simpa using hfront

theorem Edits.reverse (h : Edits n a b) : Edits n a.reverse b.reverse := by
  induction h with
  | none cs => exact .none cs.reverse
  | more _ hedit ih => exact .more ih hedit.reverse

theorem Edits.behind (d : Char) (h : Edits n a b) : Edits n (d :: a) (d :: b) := by
  induction h with
  | none cs => exact .none (d :: cs)
  | more _ hedit ih => exact .more ih (.behind d hedit)

/-- An edit changes the length of a text by one at most. -/
theorem Edit.length_le (h : Edit a b) :
    a.length ≤ b.length + 1 ∧ b.length ≤ a.length + 1 := by
  induction h with
  | behind c _ ih => simp only [List.length_cons]; omega
  | _ => simp only [List.length_cons]; omega

theorem Edits.length_le (h : Edits n a b) : a.length ≤ b.length + n ∧ b.length ≤ a.length + n := by
  induction h with
  | none cs => omega
  | more _ hedit ih =>
      have hlast := hedit.length_le
      omega

/-! ### Edits in one pass -/

/-- One pass over both texts keeps some characters and edits the others, so many of them. -/
inductive Pass : Nat → List Char → List Char → Prop
  | nil : Pass 0 [] []
  | keep (c : Char) {n : Nat} {a b : List Char} : Pass n a b → Pass n (c :: a) (c :: b)
  | insert (c : Char) {n : Nat} {a b : List Char} : Pass n a b → Pass (n + 1) a (c :: b)
  | delete (c : Char) {n : Nat} {a b : List Char} : Pass n a b → Pass (n + 1) (c :: a) b
  | replace (c d : Char) {n : Nat} {a b : List Char} :
      Pass n a b → Pass (n + 1) (c :: a) (d :: b)

theorem Pass.edits (h : Pass n a b) : Edits n a b := by
  induction h with
  | nil => exact .none []
  | keep c _ ih => exact ih.behind c
  | insert c _ ih => exact .more ih (.insert c _)
  | delete c _ ih => exact .more (ih.behind c) (.delete c _)
  | replace c d _ ih => exact .more (ih.behind c) (.replace c d _)

theorem Pass.refl (cs : List Char) : Pass 0 cs cs := by
  induction cs with
  | nil => exact .nil
  | cons c cs ih => exact .keep c ih

/-- One edit more may undo what the pass did at its place, but never takes more than one. -/
theorem Pass.edit (h : Pass n a b) (hedit : Edit b c) : ∃ m ≤ n + 1, Pass m a c := by
  induction h generalizing c with
  | nil =>
      cases hedit with
      | insert d => exact ⟨1, le_rfl, .insert d .nil⟩
  | @keep x n a b h ih =>
      cases hedit with
      | insert d => exact ⟨n + 1, le_rfl, .insert d (.keep x h)⟩
      | delete => exact ⟨n + 1, le_rfl, .delete x h⟩
      | replace _ d => exact ⟨n + 1, le_rfl, .replace x d h⟩
      | behind _ hedit =>
          obtain ⟨m, hm, hpass⟩ := ih hedit
          exact ⟨m, hm, .keep x hpass⟩
  | @insert x n a b h ih =>
      cases hedit with
      | insert d => exact ⟨n + 2, le_rfl, .insert d (.insert x h)⟩
      | delete => exact ⟨n, by omega, h⟩
      | replace _ d => exact ⟨n + 1, by omega, .insert d h⟩
      | behind _ hedit =>
          obtain ⟨m, hm, hpass⟩ := ih hedit
          exact ⟨m + 1, by omega, .insert x hpass⟩
  | @delete x n a b h ih =>
      obtain ⟨m, hm, hpass⟩ := ih hedit
      exact ⟨m + 1, by omega, .delete x hpass⟩
  | @replace x y n a b h ih =>
      cases hedit with
      | insert d => exact ⟨n + 2, le_rfl, .insert d (.replace x y h)⟩
      | delete => exact ⟨n + 1, by omega, .delete x h⟩
      | replace _ d => exact ⟨n + 1, by omega, .replace x d h⟩
      | behind _ hedit =>
          obtain ⟨m, hm, hpass⟩ := ih hedit
          exact ⟨m + 1, by omega, .replace x y hpass⟩

theorem Edits.exists_pass (h : Edits n a b) : ∃ m ≤ n, Pass m a b := by
  induction h with
  | none cs => exact ⟨0, le_rfl, .refl cs⟩
  | more _ hedit ih =>
      obtain ⟨m, hm, hpass⟩ := ih
      obtain ⟨k, hk, hpass⟩ := hpass.edit hedit
      exact ⟨k, by omega, hpass⟩

/-! ### The fewest edits -/

/-- The fewest edits of a pass, by the first characters of both texts. -/
def fewest : List Char → List Char → Nat
  | [], b => b.length
  | a, [] => a.length
  | x :: a, y :: b =>
      min (min (fewest a (y :: b) + 1) (fewest (x :: a) b + 1))
        (fewest a b + if x = y then 0 else 1)
termination_by a b => a.length + b.length

@[simp] theorem fewest_nil_left (b : List Char) : fewest [] b = b.length := by rw [fewest]

@[simp] theorem fewest_nil_right (a : List Char) : fewest a [] = a.length := by
  cases a with
  | nil => rw [fewest]
  | cons x a => rw [fewest]; exact List.cons_ne_nil x a

theorem fewest_cons (x : Char) (a : List Char) (y : Char) (b : List Char) :
    fewest (x :: a) (y :: b) =
      min (min (fewest a (y :: b) + 1) (fewest (x :: a) b + 1))
        (fewest a b + if x = y then 0 else 1) := by
  rw [fewest]

theorem fewest_insert_le (y : Char) (a b : List Char) : fewest a (y :: b) ≤ fewest a b + 1 := by
  cases a with
  | nil => simp
  | cons x a => rw [fewest_cons]; omega

theorem fewest_delete_le (x : Char) (a b : List Char) : fewest (x :: a) b ≤ fewest a b + 1 := by
  cases b with
  | nil => simp
  | cons y b => rw [fewest_cons]; omega

theorem Pass.fewest_le (h : Pass n a b) : fewest a b ≤ n := by
  induction h with
  | nil => simp
  | keep c _ ih => rw [fewest_cons, if_pos rfl]; omega
  | @insert c _ a b _ ih =>
      have hinsert := fewest_insert_le c a b
      omega
  | @delete c _ a b _ ih =>
      have hdelete := fewest_delete_le c a b
      omega
  | replace c d _ ih =>
      rw [fewest_cons]
      split <;> omega

theorem pass_insert_all (b : List Char) : Pass b.length [] b := by
  induction b with
  | nil => exact .nil
  | cons y b ih => exact .insert y ih

theorem pass_delete_all (a : List Char) : Pass a.length a [] := by
  induction a with
  | nil => exact .nil
  | cons x a ih => exact .delete x ih

theorem pass_fewest (a b : List Char) : Pass (fewest a b) a b := by
  fun_induction fewest a b with
  | case1 b => exact pass_insert_all b
  | case2 a _ => exact pass_delete_all a
  | case3 x a y b hdelete hinsert hboth =>
      have hchoice (k l m : Nat) :
          min (min k l) m = k ∨ min (min k l) m = l ∨ min (min k l) m = m := by omega
      rcases hchoice (fewest a (y :: b) + 1) (fewest (x :: a) b + 1)
        (fewest a b + if x = y then 0 else 1) with h | h | h
      · rw [h]
        exact .delete x hdelete
      · rw [h]
        exact .insert y hinsert
      · rw [h]
        split
        · rename_i hxy
          rw [hxy]
          exact .keep y hboth
        · exact .replace x y hboth

/-! ### The table -/

/-- The entries of the row of `p` for the beginnings of the second text longer than `q`, which goes
on with `word`. -/
def entries (p q : List Char) : List Char → List Nat
  | [] => []
  | y :: word => fewest p (y :: q) :: entries p (y :: q) word

theorem extendRow_entries (x : Char) (p q word : List Char) :
    extendRow x (fewest p q) (fewest (x :: p) q) word (entries p q word) =
      entries (x :: p) q word := by
  induction word generalizing q with
  | nil => rfl
  | cons y word ih =>
      rw [entries, extendRow, ← fewest_cons, ih, entries]

/-- The row of what is read of the first text. -/
def row (word p : List Char) : List Nat := fewest p [] :: entries p [] word

theorem nextRow_row (word p : List Char) (x : Char) :
    nextRow word (row word p) x = row word (x :: p) := by
  have hfirst : fewest p [] + 1 = fewest (x :: p) [] := by simp
  rw [row, nextRow, hfirst, extendRow_entries, row]

theorem foldl_nextRow (word a p : List Char) :
    a.foldl (nextRow word) (row word p) = row word (a.reverse ++ p) := by
  induction a generalizing p with
  | nil => rfl
  | cons x a ih =>
      rw [List.foldl_cons, nextRow_row, ih, List.reverse_cons, List.append_assoc]
      rfl

theorem entries_nil (q word : List Char) :
    entries [] q word = List.range' (q.length + 1) word.length := by
  induction word generalizing q with
  | nil => rfl
  | cons y word ih => simp [entries, ih, List.range'_succ]

theorem row_nil (word : List Char) : row word [] = List.range (word.length + 1) := by
  rw [row, entries_nil, List.range_eq_range', List.range'_succ, fewest_nil_left]
  rfl

theorem length_entries (p q word : List Char) : (entries p q word).length = word.length := by
  induction word generalizing q with
  | nil => rfl
  | cons y word ih => rw [entries, List.length_cons, ih, List.length_cons]

theorem length_row (word p : List Char) : (row word p).length = word.length + 1 := by
  rw [row, List.length_cons, length_entries]

theorem getElem?_entries (p q word : List Char) {j : Nat} (h : j < word.length) :
    (entries p q word)[j]? = some (fewest p ((word.take (j + 1)).reverse ++ q)) := by
  induction word generalizing q j with
  | nil => cases h
  | cons y word ih =>
      rw [entries]
      cases j with
      | zero => simp
      | succ j => simpa using ih (y :: q) (Nat.lt_of_succ_lt_succ h)

theorem getElem?_row (word p : List Char) {j : Nat} (h : j ≤ word.length) :
    (row word p)[j]? = some (fewest p (word.take j).reverse) := by
  cases j with
  | zero => rfl
  | succ j =>
      rw [row, List.getElem?_cons_succ, getElem?_entries p [] word h, List.append_nil]

theorem distance_eq_fewest (a b : List Char) : distance a b = fewest a.reverse b.reverse := by
  rw [distance, ← row_nil, foldl_nextRow, List.append_nil, List.getLastD_eq_getLast?,
    List.getLast?_eq_getElem?, length_row, Nat.add_sub_cancel, getElem?_row b _ le_rfl,
    List.take_length, Option.getD_some]

/-- No text is turned into another one by fewer edits than their distance. -/
theorem isLeast_distance (a b : List Char) : IsLeast {n | Edits n a b} (distance a b) := by
  rw [distance_eq_fewest]
  constructor
  · have hedits := (pass_fewest a.reverse b.reverse).edits.reverse
    simpa using hedits
  · intro n hedits
    obtain ⟨m, hm, hpass⟩ := hedits.reverse.exists_pass
    exact hpass.fewest_le.trans hm

end LamScope.Suggest
