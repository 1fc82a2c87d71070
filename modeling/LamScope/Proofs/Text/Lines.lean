import LamScope.LineMap
import Mathlib.Data.List.Induction

/-!
# Lines and offsets

An offset between two characters is on the line whose number is one more than that of the newlines
before it, and its column is one more than the length of what stands before it on that line. Main
statements: a line map finds just that, and it gives the text of that line.
-/
namespace LamScope

namespace Text

/-- The offset falls between two characters, or at an end of the text. -/
def Boundary (cs : List Char) (n : Nat) : Prop := ∃ before, before <+: cs ∧ byteLength before = n

theorem boundary_append (before after : List Char) :
    Boundary (before ++ after) (byteLength before) := ⟨before, List.prefix_append _ _, rfl⟩

theorem Boundary.le {cs : List Char} {n : Nat} (h : Boundary cs n) : n ≤ byteLength cs := by
  obtain ⟨before, ⟨after, rfl⟩, rfl⟩ := h
  rw [byteLength_append]
  exact Nat.le_add_right _ _

theorem eq_nil_of_byteLength_eq_zero {cs : List Char} (h : byteLength cs = 0) : cs = [] := by
  cases cs with
  | nil => rfl
  | cons c cs =>
      have hpos := c.utf8Size_pos
      rw [byteLength_cons] at h
      omega

theorem length_le_byteLength (cs : List Char) : cs.length ≤ byteLength cs := by
  induction cs with
  | nil => exact Nat.le_refl 0
  | cons c cs ih =>
      have hpos := c.utf8Size_pos
      rw [List.length_cons, byteLength_cons]
      omega

theorem byteLength_replicate (n : Nat) : byteLength (List.replicate n ' ') = n := by
  induction n with
  | zero => rfl
  | succ n ih =>
      have hsize : ' '.utf8Size = 1 := by decide
      rw [List.replicate_succ, byteLength_cons, ih, hsize, Nat.add_comm]

/-- Of two places in a text the nearer one comes with less before it. -/
theorem isPrefix_of_byteLength_le {cs xs ys : List Char} (hx : xs <+: cs) (hy : ys <+: cs)
    (h : byteLength xs ≤ byteLength ys) : xs <+: ys := by
  rcases List.prefix_or_prefix_of_prefix hx hy with hxy | ⟨rest, rfl⟩
  · exact hxy
  · have hrest : rest = [] := by
      rw [byteLength_append] at h
      exact eq_nil_of_byteLength_eq_zero (by omega)
    simp [hrest]

theorem dropBytes?_append (before after : List Char) :
    dropBytes? (byteLength before) (before ++ after) = some after := by
  induction before with
  | nil => cases after <;> rfl
  | cons c cs ih =>
      obtain ⟨n, hn⟩ := Nat.exists_eq_add_one.mpr c.utf8Size_pos
      rw [byteLength_cons, List.cons_append, hn, Nat.add_right_comm, dropBytes?, if_pos (by omega),
        hn, Nat.add_right_comm, Nat.add_sub_cancel_left, ih]

theorem takeBytes?_append (before after : List Char) :
    takeBytes? (byteLength before) (before ++ after) = some before := by
  induction before with
  | nil => cases after <;> rfl
  | cons c cs ih =>
      obtain ⟨n, hn⟩ := Nat.exists_eq_add_one.mpr c.utf8Size_pos
      rw [byteLength_cons, List.cons_append, hn, Nat.add_right_comm, takeBytes?, if_pos (by omega),
        hn, Nat.add_right_comm, Nat.add_sub_cancel_left, ih]
      rfl

theorem slice?_append (before cs after : List Char) :
    slice? (before ++ cs ++ after) (byteLength before) (byteLength (before ++ cs)) = some cs := by
  rw [slice?, if_pos (by simp), List.append_assoc, dropBytes?_append, Option.bind_some,
    byteLength_append, Nat.add_sub_cancel_left, takeBytes?_append]

end Text

namespace LineMap

open Text

/-- The search ends between two neighbours: what is at most the offset and what is more. -/
theorem lastAtMost_spec {starts : Array Nat} {offset lo hi : Nat} (hlt : lo < hi)
    (hhi : hi ≤ starts.size) (hlo : starts.getD lo 0 ≤ offset)
    (habove : hi < starts.size → offset < starts.getD hi 0) :
    lastAtMost starts offset lo hi < starts.size ∧
      starts.getD (lastAtMost starts offset lo hi) 0 ≤ offset ∧
      (lastAtMost starts offset lo hi + 1 < starts.size →
        offset < starts.getD (lastAtMost starts offset lo hi + 1) 0) := by
  fun_induction lastAtMost starts offset lo hi with
  | case1 lo hi hle =>
      obtain rfl : hi = lo + 1 := by omega
      exact ⟨hhi, hlo, habove⟩
  | case2 lo hi hgt mid hmid ih => exact ih (by omega) hhi hmid habove
  | case3 lo hi hgt mid hmid ih =>
      exact ih (by omega) (by omega) hlo fun _ => Nat.lt_of_not_le hmid

theorem startsAfter_append (n : Nat) (xs ys : List Char) :
    startsAfter n (xs ++ ys) = startsAfter n xs ++ startsAfter (n + byteLength xs) ys := by
  induction xs generalizing n with
  | nil => rfl
  | cons c cs ih =>
      rw [List.cons_append, startsAfter, startsAfter, ih, byteLength_cons, Nat.add_assoc]
      split <;> rfl

theorem mem_startsAfter {n s : Nat} {cs : List Char} (h : s ∈ startsAfter n cs) :
    n < s ∧ s ≤ n + byteLength cs := by
  induction cs generalizing n with
  | nil => cases h
  | cons c cs ih =>
      have hpos := c.utf8Size_pos
      rw [startsAfter] at h
      rw [byteLength_cons]
      split at h
      · rcases List.mem_cons.mp h with rfl | h
        · omega
        · have hs := ih h
          omega
      · have hs := ih h
        omega

theorem length_startsAfter (n : Nat) (cs : List Char) :
    (startsAfter n cs).length = cs.count '\n' := by
  induction cs generalizing n with
  | nil => rfl
  | cons c cs ih =>
      rw [startsAfter]
      split
      · rename_i hc
        rw [hc, List.length_cons, ih, List.count_cons_self]
      · rename_i hc
        rw [ih, List.count_cons_of_ne hc]

/-- The search finds the last of the entries that are at most the offset. -/
theorem lastAtMost_append {offset x : Nat} {xs ys : List Nat} (hx : x ≤ offset)
    (hxs : ∀ n ∈ xs, n ≤ offset) (hys : ∀ n ∈ ys, offset < n) :
    lastAtMost (x :: xs ++ ys).toArray offset 0 (x :: xs ++ ys).toArray.size = xs.length := by
  have hgetD (i : Nat) : (x :: xs ++ ys).toArray.getD i 0 = (x :: xs ++ ys).getD i 0 := by
    simp [Array.getD_eq_getD_getElem?]
  obtain ⟨hlt, hat, hnext⟩ := @lastAtMost_spec (x :: xs ++ ys).toArray offset 0
    (x :: xs ++ ys).toArray.size (by simp) (Nat.le_refl _) (by rwa [hgetD])
    fun h => (Nat.lt_irrefl _ h).elim
  rw [hgetD] at hat hnext
  generalize lastAtMost (x :: xs ++ ys).toArray offset 0 (x :: xs ++ ys).toArray.size = r at *
  have hsize : (x :: xs ++ ys).toArray.size = xs.length + 1 + ys.length := by
    simp [Nat.add_right_comm]
  rcases Nat.lt_trichotomy r xs.length with hr | hr | hr
  · have hn : offset < xs[r] := by
      simpa [List.getElem?_append_left hr, hr] using hnext (by omega)
    exact (Nat.not_lt.mpr (hxs _ (List.getElem_mem hr)) hn).elim
  · exact hr
  · have hk : r - (xs.length + 1) < ys.length := by omega
    have hn : ys[r - (xs.length + 1)] ≤ offset := by
      rw [List.getD_eq_getElem?_getD, List.getElem?_append_right (by rwa [List.length_cons])] at hat
      simpa [hk] using hat
    exact (Nat.not_le.mpr (hys _ (List.getElem_mem hk)) hn).elim

variable {source : String} {before after : List Char}

theorem starts_ofSource (h : source.toList = before ++ after) :
    (ofSource source).starts =
      (0 :: startsAfter 0 before ++ startsAfter (byteLength before) after).toArray := by
  rw [ofSource, h, ofText, startsAfter_append, Nat.zero_add]
  rfl

/-- The lines before an offset are counted by the newlines before it. -/
theorem indexOf_ofSource (h : source.toList = before ++ after) :
    (ofSource source).indexOf (byteLength before) = before.count '\n' := by
  rw [indexOf, starts_ofSource h, ← length_startsAfter 0 before]
  refine lastAtMost_append (Nat.zero_le _) (fun n hn => ?_) fun n hn => (mem_startsAfter hn).1
  have hle := (mem_startsAfter hn).2
  rwa [Nat.zero_add] at hle

theorem clip_of_lt {n : Nat} (h : n < UInt32.size) : clip n = n := Nat.mod_eq_of_lt h

theorem clip_le (n : Nat) : clip n ≤ n := Nat.mod_le n _

theorem clip_byteLength (h : source.toList = before ++ after)
    (hsize : byteLength source.toList < UInt32.size) :
    clip (byteLength before) = byteLength before := by
  rw [h, byteLength_append] at hsize
  exact clip_of_lt (Nat.lt_of_le_of_lt (Nat.le_add_right _ _) hsize)

theorem lineOf_ofSource (h : source.toList = before ++ after)
    (hsize : byteLength source.toList < UInt32.size) :
    (ofSource source).lineOf (byteLength before) = before.count '\n' + 1 := by
  rw [lineOf, clip_byteLength h hsize, indexOf_ofSource h]

theorem ofText_eq (cs : List Char) : ofText cs = ofSource (String.ofList cs) := by
  rw [ofSource, String.toList_ofList]

theorem lineOf_ofText {cs : List Char} (h : cs = before ++ after)
    (hsize : byteLength cs < UInt32.size) :
    (ofText cs).lineOf (byteLength before) = before.count '\n' + 1 := by
  rw [ofText_eq]
  exact lineOf_ofSource (by rw [String.toList_ofList, h]) (by rwa [String.toList_ofList])

/-- A line of a text, with what stands before it and with its newline, if it has one, and what
stands behind it. -/
structure Line (cs before line after : List Char) : Prop where
  text : cs = before ++ line ++ after
  starts : before = [] ∨ ∃ others, before = others ++ ['\n']
  within : '\n' ∉ line
  ends : after = [] ∨ ∃ others, after = '\n' :: others

/-- Every place in a text is on a line. -/
theorem exists_line (before after : List Char) :
    ∃ others left right rest, before = others ++ left ∧
      Line (before ++ after) others (left ++ right) rest := by
  have hright : ∃ right rest, after = right ++ rest ∧ '\n' ∉ right ∧
      (rest = [] ∨ ∃ others, rest = '\n' :: others) := by
    induction after with
    | nil => exact ⟨[], [], rfl, by simp, .inl rfl⟩
    | cons c cs ih =>
        by_cases hc : c = '\n'
        · exact ⟨[], c :: cs, rfl, by simp, .inr ⟨cs, by rw [hc]⟩⟩
        · obtain ⟨right, rest, rfl, hright, hrest⟩ := ih
          exact ⟨c :: right, rest, rfl, by simp [hright, Ne.symm hc], hrest⟩
  have hleft : ∃ others left, before = others ++ left ∧ '\n' ∉ left ∧
      (others = [] ∨ ∃ more, others = more ++ ['\n']) := by
    induction before using List.reverseRecOn with
    | nil => exact ⟨[], [], rfl, by simp, .inl rfl⟩
    | append_singleton cs c ih =>
        by_cases hc : c = '\n'
        · exact ⟨cs ++ [c], [], by simp, by simp, .inr ⟨cs, by rw [hc]⟩⟩
        · obtain ⟨others, left, rfl, hleft, hothers⟩ := ih
          exact ⟨others, left ++ [c], by simp, by simp [hleft, Ne.symm hc], hothers⟩
  obtain ⟨others, left, rfl, hleft, hothers⟩ := hleft
  obtain ⟨right, rest, rfl, hright, hrest⟩ := hright
  exact ⟨others, left, right, rest, rfl, by simp, hothers, by simp [hleft, hright], hrest⟩

variable {line left right : List Char}

theorem startsAfter_eq_nil {n : Nat} {cs : List Char} (h : '\n' ∉ cs) : startsAfter n cs = [] := by
  rw [← List.length_eq_zero_iff, length_startsAfter, List.count_eq_zero]
  exact h

/-- What starts a line is the last start of those up to there. -/
theorem getElem?_startsAfter (h : before = [] ∨ ∃ others, before = others ++ ['\n'])
    (more : List Nat) :
    (0 :: startsAfter 0 before ++ more)[before.count '\n']? = some (byteLength before) := by
  rcases h with rfl | ⟨others, rfl⟩
  · rfl
  · have hlength := length_startsAfter 0 others
    have hstart : startsAfter (byteLength others) ['\n'] = [byteLength (others ++ ['\n'])] := by
      rw [byteLength_append]
      rfl
    rw [startsAfter_append, Nat.zero_add, hstart, List.count_append, List.count_singleton_self,
      ← hlength, List.cons_append, List.getElem?_cons_succ, List.append_assoc,
      List.getElem?_append_right (Nat.le_refl _), Nat.sub_self]
    rfl

theorem Line.starts_eq (h : Line source.toList before line after) :
    (ofSource source).starts =
      (0 :: startsAfter 0 before ++ startsAfter (byteLength (before ++ line)) after).toArray := by
  rw [starts_ofSource h.text, startsAfter_append, startsAfter_eq_nil h.within, List.append_nil]

theorem Line.start_eq (h : Line source.toList before line after) :
    (ofSource source).starts[before.count '\n']? = some (byteLength before) := by
  rw [h.starts_eq, List.getElem?_toArray]
  exact getElem?_startsAfter h.starts _

theorem Line.getD_start_eq (h : Line source.toList before line after) :
    (ofSource source).starts.getD (before.count '\n') 0 = byteLength before := by
  rw [Array.getD_eq_getD_getElem?, h.start_eq, Option.getD_some]

/-- The offset is on the line or at its newline. Past the end of a text its last line goes on. -/
structure OnLine (cs before line after : List Char) (n : Nat) : Prop
    extends Line cs before line after where
  start_le : byteLength before ≤ n
  le_stop : n ≤ byteLength (before ++ line) ∨ after = []

theorem Line.onLine {cs : List Char} (h : Line cs before (left ++ right) after) :
    OnLine cs before (left ++ right) after (byteLength (before ++ left)) := by
  refine ⟨h, by simp, .inl ?_⟩
  rw [← List.append_assoc, byteLength_append _ right]
  exact Nat.le_add_right _ _

/-- An offset may fall inside a character. Then the place before that character is the last one
that is not behind it. -/
theorem exists_place_le (cs : List Char) (n : Nat) :
    ∃ before after, cs = before ++ after ∧ byteLength before ≤ n ∧
      ∀ c, after.head? = some c → n < byteLength before + c.utf8Size := by
  induction cs generalizing n with
  | nil => exact ⟨[], [], rfl, Nat.zero_le n, nofun⟩
  | cons c cs ih =>
      by_cases hc : c.utf8Size ≤ n
      · obtain ⟨before, after, rfl, hle, hlt⟩ := ih (n - c.utf8Size)
        refine ⟨c :: before, after, rfl, ?_, fun d hd => ?_⟩
        · rw [byteLength_cons]
          omega
        · have hd := hlt d hd
          rw [byteLength_cons]
          omega
      · refine ⟨[], c :: cs, rfl, Nat.zero_le n, fun d hd => ?_⟩
        obtain rfl : c = d := Option.some.inj hd
        rw [byteLength_nil]
        omega

/-- Every offset is on a line. -/
theorem exists_onLine (cs : List Char) (n : Nat) :
    ∃ before line after, OnLine cs before line after n := by
  obtain ⟨before, after, rfl, hle, hlt⟩ := exists_place_le cs n
  obtain ⟨others, left, right, rest, rfl, hline⟩ := exists_line before after
  have hafter : after = right ++ rest := by
    have htext := hline.text
    simpa only [List.append_assoc, List.append_cancel_left_eq] using htext
  refine ⟨others, left ++ right, rest, hline, ?_, ?_⟩
  · rw [byteLength_append] at hle
    omega
  · rcases hline.ends with rfl | ⟨more, rfl⟩
    · exact .inr rfl
    · left
      rw [← List.append_assoc, byteLength_append _ right]
      cases right with
      | nil =>
          have hn := hlt '\n' (by rw [hafter]; rfl)
          exact Nat.le_of_lt_succ hn
      | cons c right =>
          have hn := hlt c (by rw [hafter]; rfl)
          rw [byteLength_cons]
          omega

variable {n : Nat}

theorem OnLine.indexOf_eq (h : OnLine source.toList before line after n) :
    (ofSource source).indexOf n = before.count '\n' := by
  rw [indexOf, h.starts_eq, ← length_startsAfter 0 before]
  refine lastAtMost_append (Nat.zero_le n) (fun k hk => ?_) fun k hk => ?_
  · have hle := (mem_startsAfter hk).2
    rw [Nat.zero_add] at hle
    exact Nat.le_trans hle h.start_le
  · rcases h.le_stop with hle | rfl
    · exact Nat.lt_of_le_of_lt hle (mem_startsAfter hk).1
    · cases hk

theorem OnLine.position_eq (h : OnLine source.toList before line after (clip n)) :
    (ofSource source).position n =
      ⟨before.count '\n' + 1, clip (clip n - byteLength before + 1)⟩ := by
  rw [position, h.indexOf_eq, h.getD_start_eq]

/-- Offsets but the last one have columns of 32 bits. -/
theorem OnLine.position_eq_of_lt (h : OnLine source.toList before line after n)
    (hn : n < UInt32.size - 1) :
    (ofSource source).position n = ⟨before.count '\n' + 1, n - byteLength before + 1⟩ := by
  have hclip : clip n = n := clip_of_lt (by omega)
  have hcolumn : clip (n - byteLength before + 1) = n - byteLength before + 1 :=
    clip_of_lt (by omega)
  rw [OnLine.position_eq (hclip.symm ▸ h), hclip, hcolumn]

theorem Line.position_eq (h : Line source.toList before (left ++ right) after)
    (hsize : byteLength source.toList < UInt32.size - 1) :
    (ofSource source).position (byteLength (before ++ left)) =
      ⟨before.count '\n' + 1, byteLength left + 1⟩ := by
  have hlt : byteLength (before ++ left) < UInt32.size - 1 := by
    rw [h.text, ← List.append_assoc, List.append_assoc _ right, byteLength_append] at hsize
    omega
  rw [h.onLine.position_eq_of_lt hlt, byteLength_append, Nat.add_sub_cancel_left]

/-- In a text of one line the last offset of all has no column. -/
theorem position_of_oneLine (hline : '\n' ∉ source.toList) :
    (ofSource source).position (UInt32.size - 1) = ⟨1, 0⟩ := by
  have hclip : clip (UInt32.size - 1) = UInt32.size - 1 := clip_of_lt (by decide)
  have honline : OnLine source.toList [] source.toList [] (clip (UInt32.size - 1)) :=
    ⟨⟨by simp, .inl rfl, hline, .inl rfl⟩, Nat.zero_le _, .inr rfl⟩
  rw [honline.position_eq, hclip]
  rfl

theorem Line.next_start_eq (h : Line source.toList before line after) :
    (ofSource source).starts[before.count '\n' + 1]? =
      (startsAfter (byteLength (before ++ line)) after).head? := by
  have hlength := length_startsAfter 0 before
  rw [h.starts_eq, List.getElem?_toArray, List.cons_append, List.getElem?_cons_succ,
    ← hlength, List.getElem?_append_right (Nat.le_refl _), Nat.sub_self, List.head?_eq_getElem?]

theorem Line.lineText?_eq (h : Line source.toList before line after) :
    (ofSource source).lineText? (before.count '\n' + 1) = some (withoutReturn line) := by
  have hslice : slice? source.toList (byteLength before) (byteLength (before ++ line)) =
      some line := by
    rw [h.text, slice?_append]
  have hnext := h.next_start_eq
  rw [lineText?, if_neg (Nat.succ_ne_zero _), Nat.add_sub_cancel, h.start_eq, Option.bind_some,
    hnext]
  rcases h.ends with rfl | ⟨others, rfl⟩
  · have hstop : byteLength source.toList = byteLength (before ++ line) := by
      rw [h.text, List.append_nil]
    show (slice? source.toList (byteLength before) (byteLength source.toList)).map _ = _
    rw [hstop, hslice]
    rfl
  · exact congrArg (Option.map withoutReturn) hslice

theorem lineText?_of_oneLine (hline : '\n' ∉ source.toList) :
    (ofSource source).lineText? 1 = some (withoutReturn source.toList) :=
  Line.lineText?_eq ⟨by simp, .inl rfl, hline, .inl rfl⟩

theorem byteLength_le_withoutReturn (cs : List Char) :
    byteLength cs ≤ byteLength (withoutReturn cs) + 1 := by
  unfold withoutReturn
  split
  · rename_i h
    obtain ⟨ds, rfl⟩ := List.getLast?_eq_some_iff.mp h
    rw [List.dropLast_concat, byteLength_append]
    exact Nat.le_refl _
  · exact Nat.le_succ _

/-- The line of an offset can be shown, wherever the offset falls. -/
theorem exists_lineText?_position (source : String) (n : Nat) :
    ∃ text, (ofSource source).lineText? ((ofSource source).position n).line = some text := by
  obtain ⟨before, line, after, hline⟩ := exists_onLine source.toList (clip n)
  rw [hline.position_eq]
  exact ⟨withoutReturn line, hline.lineText?_eq⟩

theorem column_pos {n : Nat} (h : n < UInt32.size - 1) (source : String) :
    0 < ((ofSource source).position n).column := by
  obtain ⟨before, line, after, hline⟩ := exists_onLine source.toList n
  rw [hline.position_eq_of_lt h]
  exact Nat.succ_pos _

section
variable {m n : Nat} (hsize : byteLength source.toList < UInt32.size)
include hsize

/-- All columns of a text lie at most one past the line shown, since a carriage return may be
missing from it. -/
theorem exists_lineText? (hn : n ≤ byteLength source.toList) :
    ∃ text, (ofSource source).lineText? ((ofSource source).position n).line = some text ∧
      ((ofSource source).position n).column ≤ byteLength text + 2 := by
  obtain ⟨before, line, after, hline⟩ := exists_onLine source.toList (clip n)
  have hclip : clip n = n := Nat.mod_eq_of_lt (Nat.lt_of_le_of_lt hn hsize)
  have hle : n ≤ byteLength (before ++ line) := by
    rcases hline.le_stop with hle | rfl
    · rwa [hclip] at hle
    · rwa [hline.text, List.append_nil] at hn
  rw [hline.position_eq]
  refine ⟨withoutReturn line, hline.lineText?_eq, ?_⟩
  have hreturn := byteLength_le_withoutReturn line
  rw [byteLength_append] at hle
  have hcolumn := clip_le (clip n - byteLength before + 1)
  dsimp only
  omega

theorem line_mono (hm : Boundary source.toList m) (hn : Boundary source.toList n) (h : m ≤ n) :
    ((ofSource source).position m).line ≤ ((ofSource source).position n).line := by
  obtain ⟨xs, hxs, rfl⟩ := hm
  obtain ⟨ys, hys, rfl⟩ := hn
  have hcount := (isPrefix_of_byteLength_le hxs hys h).sublist.count_le '\n'
  obtain ⟨after, hafter⟩ := hxs
  obtain ⟨after', hafter'⟩ := hys
  have hx := lineOf_ofSource hafter.symm hsize
  have hy := lineOf_ofSource hafter'.symm hsize
  show (ofSource source).lineOf _ ≤ (ofSource source).lineOf _
  omega

end

/-- On one line columns are as far apart as places. -/
theorem column_add {m n : Nat} (hsize : byteLength source.toList < UInt32.size - 1)
    (hm : Boundary source.toList m) (hn : Boundary source.toList n) (h : m ≤ n)
    (hline : ((ofSource source).position m).line = ((ofSource source).position n).line) :
    ((ofSource source).position n).column = ((ofSource source).position m).column + (n - m) := by
  have hlt : n < UInt32.size - 1 := Nat.lt_of_le_of_lt hn.le hsize
  obtain ⟨before, ⟨after, htext⟩, rfl⟩ := hm
  obtain ⟨others, left, right, rest, rfl, hl⟩ := exists_line before after
  rw [htext] at hl
  have hposition := hl.position_eq hsize
  rw [hposition] at hline ⊢
  have hindex : (ofSource source).indexOf (clip n) = others.count '\n' :=
    (Nat.add_right_cancel hline).symm
  have hclip : clip n = n := clip_of_lt (by omega)
  have hcolumn : ((ofSource source).position n).column = n - byteLength others + 1 := by
    rw [position, hindex, hl.getD_start_eq, hclip]
    exact clip_of_lt (by omega)
  rw [byteLength_append] at h ⊢
  rw [hcolumn]
  dsimp only
  omega

end LineMap

end LamScope
