import LamScope.Proofs.Text.Lines
import Mathlib.Data.Prod.Lex
import Mathlib.Order.Interval.Set.Defs
import Mathlib.Order.Monotone.Defs

/-!
# Positions of a text

A line map works with the offsets of the bytes of a text. Main statement: for every offset that has
a line and a column of 32 bits, the line is one more than the number of newline bytes before the
offset, and the column counts from the last of them. So positions come in the order of offsets. The
text of a line is the piece of that number between newlines, without one carriage return at its end.
-/
namespace LamScope

namespace Text

/-- The bytes of a text in UTF-8. -/
def bytes (source : String) : List UInt8 := source.toUTF8.data.toList

def newline : UInt8 := 10

/-- The bytes of some characters. -/
def utf8 (cs : List Char) : List UInt8 := cs.flatMap String.utf8EncodeChar

theorem bytes_eq_utf8 (source : String) : bytes source = utf8 source.toList := by
  rw [bytes, String.toUTF8_eq_toByteArray, ← String.utf8Encode_toList, List.utf8Encode,
    List.toList_data_toByteArray, utf8]

@[simp] theorem utf8_nil : utf8 [] = [] := rfl

@[simp] theorem utf8_append (a b : List Char) : utf8 (a ++ b) = utf8 a ++ utf8 b :=
  List.flatMap_append

theorem length_utf8 (cs : List Char) : (utf8 cs).length = byteLength cs := by
  induction cs with
  | nil => rfl
  | cons c cs ih =>
      rw [utf8, List.flatMap_cons, List.length_append, String.length_utf8EncodeChar,
        byteLength_cons, ← ih, utf8]

theorem utf8ByteSize_eq_byteLength (source : String) :
    source.utf8ByteSize = byteLength source.toList := by
  rw [← length_utf8, ← bytes_eq_utf8]
  rfl

theorem ofNat_eq_newline_iff {n : Nat} (h : n < 256) : UInt8.ofNat n = newline ↔ n = 10 := by
  rw [← UInt8.toNat_inj, UInt8.toNat_ofNat_of_lt' h]
  rfl

theorem eq_newline_iff (c : Char) : c = '\n' ↔ c.val.toNat = 10 := by
  rw [← Char.val_inj, ← UInt32.toNat_inj]
  rfl

/-- All bytes of a character beyond ASCII are too large to be a newline. -/
theorem newline_notMem_utf8EncodeChar {c : Char} (h : ¬ c.val.toNat ≤ 127) :
    newline ∉ String.utf8EncodeChar c := by
  have hne {n : Nat} (hn : 128 ≤ n) (hlt : n < 256) : newline ≠ UInt8.ofNat n := by
    intro heq
    have hten := (ofNat_eq_newline_iff hlt).mp heq.symm
    omega
  fun_cases String.utf8EncodeChar c with
  | case1 v hone => exact absurd hone h
  | case2 v _ htwo =>
      simp only [List.mem_cons, List.not_mem_nil, or_false, not_or]
      exact ⟨hne (by omega) (by omega), hne (by omega) (by omega)⟩
  | case3 v _ _ hthree =>
      simp only [List.mem_cons, List.not_mem_nil, or_false, not_or]
      exact ⟨hne (by omega) (by omega), hne (by omega) (by omega), hne (by omega) (by omega)⟩
  | case4 v =>
      simp only [List.mem_cons, List.not_mem_nil, or_false, not_or]
      exact ⟨hne (by omega) (by omega), hne (by omega) (by omega), hne (by omega) (by omega),
        hne (by omega) (by omega)⟩

theorem count_newline_utf8EncodeChar (c : Char) :
    (String.utf8EncodeChar c).count newline = if c = '\n' then 1 else 0 := by
  by_cases hc : c.val.toNat ≤ 127
  · have hbyte := ofNat_eq_newline_iff (Nat.lt_of_le_of_lt hc (by decide))
    rw [← eq_newline_iff] at hbyte
    simp only [String.utf8EncodeChar, if_pos hc, List.count_cons, List.count_nil, beq_iff_eq, hbyte,
      Nat.zero_add]
  · have hne : c ≠ '\n' := by
      intro heq
      rw [(eq_newline_iff c).mp heq] at hc
      omega
    rw [if_neg hne, List.count_eq_zero]
    exact newline_notMem_utf8EncodeChar hc

theorem count_newline_utf8 (cs : List Char) : (utf8 cs).count newline = cs.count '\n' := by
  induction cs with
  | nil => rfl
  | cons c cs ih =>
      rw [utf8, List.flatMap_cons, List.count_append, count_newline_utf8EncodeChar, ← utf8, ih,
        List.count_cons, Nat.add_comm]
      simp only [beq_iff_eq]

theorem newline_notMem_utf8 {cs : List Char} (h : '\n' ∉ cs) : newline ∉ utf8 cs := by
  rw [← List.count_eq_zero, count_newline_utf8, List.count_eq_zero]
  exact h

end Text

namespace LineMap

open Text

/-- Just after the last newline byte before an offset, or at the front of the bytes if there is
none. -/
structure LastStart (bs : List UInt8) (offset start : Nat) : Prop where
  le : start ≤ offset
  follows : start = 0 ∨ ∃ i, start = i + 1 ∧ bs[i]? = some newline
  last : ∀ i, start ≤ i → i < offset → bs[i]? ≠ some newline

/-- The text of a line less its carriage return, if it ends in one. -/
def LessReturn (line text : List Char) : Prop :=
  text ++ ['\r'] = line ∨ text = line ∧ ¬ ['\r'] <:+ line

/-- The order of positions in a text. -/
def place (p : Position) : Nat ×ₗ Nat := toLex (p.line, p.column)

/-- The offsets of which lines and columns are numbers of 32 bits. -/
def offsets : Set Nat := Set.Iio (UInt32.size - 1)

variable {source : String} {before line after : List Char} {n : Nat}

/-- Up to an offset there are the bytes before its line and some of the line. -/
theorem OnLine.exists_take (h : OnLine source.toList before line after n) :
    ∃ part, part <+: utf8 line ∧ (bytes source).take n = utf8 before ++ part := by
  have hbytes : bytes source = utf8 before ++ (utf8 line ++ utf8 after) := by
    rw [bytes_eq_utf8, h.text, utf8_append, utf8_append, List.append_assoc]
  have hstart := h.start_le
  rw [← length_utf8] at hstart
  rw [hbytes, List.take_append, List.take_of_length_le hstart]
  refine ⟨_, ?_, rfl⟩
  -- Past the end of the text the whole of its last line is taken.
  rcases h.le_stop with hstop | rfl
  · rw [byteLength_append, ← length_utf8, ← length_utf8] at hstop
    rw [List.take_append_of_le_length (by omega)]
    exact List.take_prefix _ _
  · rw [utf8_nil, List.append_nil]
    exact List.take_prefix _ _

theorem OnLine.count_take (h : OnLine source.toList before line after n) :
    ((bytes source).take n).count newline = before.count '\n' := by
  obtain ⟨part, hpart, htake⟩ := h.exists_take
  have hnone : newline ∉ part := fun hmem => newline_notMem_utf8 h.within (hpart.subset hmem)
  rw [htake, List.count_append, count_newline_utf8, List.count_eq_zero.mpr hnone, Nat.add_zero]

theorem getElem?_newline (others rest : List Char) :
    (utf8 (others ++ '\n' :: rest))[byteLength others]? = some newline := by
  rw [utf8_append, ← length_utf8, List.getElem?_append_right (Nat.le_refl _), Nat.sub_self]
  rfl

theorem OnLine.lastStart (h : OnLine source.toList before line after n) :
    LastStart (bytes source) n (byteLength before) where
  le := h.start_le
  follows := by
    rcases h.starts with rfl | ⟨others, rfl⟩
    · exact .inl rfl
    · have htext : source.toList = others ++ '\n' :: (line ++ after) := by
        rw [h.text]
        simp
      refine .inr ⟨byteLength others, byteLength_append others ['\n'], ?_⟩
      rw [bytes_eq_utf8, htext, getElem?_newline]
  last := by
    intro i hle hlt hnewline
    obtain ⟨part, hpart, htake⟩ := h.exists_take
    rw [← length_utf8] at hle
    rw [← List.getElem?_take_of_lt hlt, htake, List.getElem?_append_right hle] at hnewline
    exact newline_notMem_utf8 h.within (hpart.subset (List.mem_of_getElem? hnewline))

theorem exists_lastStart (source : String) (hn : n ∈ offsets) :
    ∃ start, LastStart (bytes source) n start ∧ (ofSource source).position n =
      ⟨1 + ((bytes source).take n).count newline, n - start + 1⟩ := by
  obtain ⟨before, line, after, hline⟩ := exists_onLine source.toList n
  refine ⟨byteLength before, hline.lastStart, ?_⟩
  rw [hline.count_take, hline.position_eq_of_lt hn, Nat.add_comm 1]

/-! ### Their order -/

theorem indexOf_eq_count (source : String) (n : Nat) :
    (ofSource source).indexOf n = ((bytes source).take n).count newline := by
  obtain ⟨before, line, after, hline⟩ := exists_onLine source.toList n
  rw [hline.indexOf_eq, hline.count_take]

theorem indexOf_mono (source : String) : Monotone (ofSource source).indexOf := by
  intro m n hmn
  rw [indexOf_eq_count, indexOf_eq_count]
  exact (List.take_prefix_take_left hmn).sublist.count_le newline

theorem start_le (source : String) (n : Nat) :
    (ofSource source).starts.getD ((ofSource source).indexOf n) 0 ≤ n := by
  obtain ⟨before, line, after, hline⟩ := exists_onLine source.toList n
  rw [hline.indexOf_eq, hline.getD_start_eq]
  exact hline.start_le

theorem position_of_mem (source : String) (hn : n ∈ offsets) :
    (ofSource source).position n = ⟨(ofSource source).indexOf n + 1,
      n - (ofSource source).starts.getD ((ofSource source).indexOf n) 0 + 1⟩ := by
  obtain ⟨before, line, after, hline⟩ := exists_onLine source.toList n
  rw [hline.position_eq_of_lt hn, hline.indexOf_eq, hline.getD_start_eq]

theorem strictMonoOn_place (source : String) :
    StrictMonoOn (fun n => place ((ofSource source).position n)) offsets := by
  intro m hm n hn hmn
  have hstart := start_le source m
  refine Prod.Lex.toLex_lt_toLex.mpr ?_
  rw [position_of_mem source hm, position_of_mem source hn]
  rcases (indexOf_mono source hmn.le).lt_or_eq with hlt | heq
  · exact .inl (Nat.add_lt_add_right hlt 1)
  · -- On one line both columns count from the same start.
    refine .inr ⟨congrArg (· + 1) heq, ?_⟩
    dsimp only
    rw [← heq]
    omega

/-! ### Texts of lines -/

theorem length_splitOn (cs : List Char) : (cs.splitOn '\n').length = cs.count '\n' + 1 := by
  induction cs with
  | nil => rfl
  | cons c cs ih =>
      rw [List.splitOn_cons_eq_if_modifyHead, List.count_cons]
      split
      · rw [List.length_cons, ih]
      · rw [List.length_modifyHead, ih]

theorem lineCount_ofSource (source : String) :
    (ofSource source).lineCount = (source.toList.splitOn '\n').length := by
  rw [length_splitOn, ← length_startsAfter 0]
  rfl

theorem Line.getElem?_splitOn {cs : List Char} (h : Line cs before line after) :
    (cs.splitOn '\n')[before.count '\n']? = some line := by
  have hfirst : ((line ++ after).splitOn '\n')[0]? = some line := by
    rcases h.ends with rfl | ⟨others, rfl⟩
    · rw [List.append_nil, List.splitOn_eq_singleton h.within]
      rfl
    · rw [List.splitOn_append_cons_self_of_not_mem h.within]
      rfl
  rw [h.text, List.append_assoc]
  rcases h.starts with rfl | ⟨others, rfl⟩
  · exact hfirst
  · have hlength := length_splitOn others
    rw [List.append_assoc, List.singleton_append, List.splitOn_append_cons_self, List.count_append,
      List.count_singleton_self, ← hlength, List.getElem?_append_right (Nat.le_refl _),
      Nat.sub_self, hfirst]

theorem exists_count_eq {cs : List Char} {k : Nat} (h : k ≤ cs.count '\n') :
    ∃ before after, cs = before ++ after ∧ before.count '\n' = k := by
  induction cs generalizing k with
  | nil => exact ⟨[], [], rfl, (Nat.le_zero.mp h).symm⟩
  | cons c cs ih =>
      cases k with
      | zero => exact ⟨[], c :: cs, rfl, rfl⟩
      | succ k =>
          rw [List.count_cons] at h
          split at h
          · rename_i hc
            obtain ⟨before, after, rfl, hcount⟩ := ih (Nat.le_of_succ_le_succ h)
            exact ⟨c :: before, after, rfl, by rw [List.count_cons, if_pos hc, hcount]⟩
          · rename_i hc
            obtain ⟨before, after, rfl, hcount⟩ := ih h
            exact ⟨c :: before, after, rfl, by rw [List.count_cons, if_neg hc, hcount]⟩

/-- There is a line of every number up to that of the newlines. -/
theorem exists_line_of_le {cs : List Char} {k : Nat} (h : k ≤ cs.count '\n') :
    ∃ before line after, Line cs before line after ∧ before.count '\n' = k := by
  obtain ⟨before, after, rfl, hcount⟩ := exists_count_eq h
  obtain ⟨others, left, right, rest, rfl, hline⟩ := exists_line before after
  refine ⟨others, left ++ right, rest, hline, ?_⟩
  have hleft : left.count '\n' = 0 := by
    rw [List.count_eq_zero]
    exact fun hmem => hline.within (List.mem_append_left right hmem)
  rw [List.count_append, hleft, Nat.add_zero] at hcount
  exact hcount

theorem lessReturn_withoutReturn (line : List Char) : LessReturn line (withoutReturn line) := by
  unfold withoutReturn
  split
  · rename_i h
    obtain ⟨front, rfl⟩ := List.getLast?_eq_some_iff.mp h
    rw [List.dropLast_concat]
    exact .inl rfl
  · rename_i h
    refine .inr ⟨rfl, ?_⟩
    rintro ⟨front, rfl⟩
    exact h List.getLast?_concat

theorem exists_lineText?_eq (h : 1 ≤ n) (hcount : n ≤ (ofSource source).lineCount) :
    ∃ line text, (source.toList.splitOn '\n')[n - 1]? = some line ∧ LessReturn line text ∧
      (ofSource source).lineText? n = some text := by
  rw [lineCount_ofSource, length_splitOn] at hcount
  obtain ⟨before, line, after, hline, hn⟩ := exists_line_of_le (Nat.sub_le_iff_le_add.mpr hcount)
  have htext := hline.lineText?_eq
  rw [hn, Nat.sub_add_cancel h] at htext
  exact ⟨line, withoutReturn line, hn ▸ hline.getElem?_splitOn, lessReturn_withoutReturn line,
    htext⟩

theorem lineText?_eq_none {m : LineMap} (h : n = 0 ∨ m.lineCount < n) : m.lineText? n = none := by
  rw [lineText?]
  split
  · rfl
  · rw [Array.getElem?_eq_none, Option.bind_none]
    unfold lineCount at h
    omega

/-! ### Every offset and every line -/

/-- The positions that a line map finds in a text, and the texts of its lines. -/
structure Locates (source : String) (m : LineMap) : Prop where
  position : ∀ n ∈ offsets, ∃ start, LastStart (bytes source) n start ∧
    m.position n = ⟨1 + ((bytes source).take n).count newline, n - start + 1⟩
  lineOf : ∀ n ∈ offsets, m.lineOf n = (m.position n).line
  strictMonoOn : StrictMonoOn (fun n => place (m.position n)) offsets
  injOn : Set.InjOn m.position offsets
  /-- All numbers are of 32 bits, except that of the lines of the longest text, if it is all
  newlines. -/
  fits : (∀ s ∈ m.starts, s < UInt32.size) ∧
    (∀ n ∈ offsets, (m.position n).line < UInt32.size ∧ (m.position n).column < UInt32.size) ∧
    (m.lineCount < UInt32.size ∨ bytes source = List.replicate (UInt32.size - 1) newline)
  lineCount : m.lineCount = (source.toList.splitOn '\n').length
  lineText : ∀ n, 1 ≤ n → n ≤ m.lineCount → ∃ line text,
    (source.toList.splitOn '\n')[n - 1]? = some line ∧ LessReturn line text ∧
      m.lineText? n = some text
  lineText_none : ∀ n, n = 0 ∨ m.lineCount < n → m.lineText? n = none

theorem lt_of_mem_starts {s : Nat} (hs : s ∈ (ofSource source).starts)
    (hsize : source.utf8ByteSize < UInt32.size) : s < UInt32.size := by
  rcases List.mem_cons.mp (List.mem_toArray.mp hs) with rfl | hs
  · decide
  · have hle := (mem_startsAfter hs).2
    rw [utf8ByteSize_eq_byteLength] at hsize
    omega

theorem position_lt (source : String) (hn : n ∈ offsets) :
    ((ofSource source).position n).line < UInt32.size ∧
      ((ofSource source).position n).column < UInt32.size := by
  obtain ⟨start, -, hposition⟩ := exists_lastStart source hn
  have hlt : n < UInt32.size - 1 := hn
  have hcount : ((bytes source).take n).count newline ≤ n :=
    List.count_le_length.trans (List.length_take_le n (bytes source))
  rw [hposition]
  constructor
  · dsimp only
    omega
  · dsimp only
    omega

theorem lineCount_lt_or (hsize : source.utf8ByteSize < UInt32.size) :
    (ofSource source).lineCount < UInt32.size ∨
      bytes source = List.replicate (UInt32.size - 1) newline := by
  have hlength : (bytes source).length = source.utf8ByteSize := rfl
  have hcount : (bytes source).count newline ≤ (bytes source).length := List.count_le_length
  rw [lineCount_ofSource, length_splitOn, ← count_newline_utf8, ← bytes_eq_utf8]
  rcases Nat.lt_or_ge ((bytes source).count newline + 1) UInt32.size with hlt | hge
  · exact .inl hlt
  · have hall : (bytes source).count newline = (bytes source).length := by omega
    refine .inr (List.eq_replicate_iff.mpr ⟨by omega, ?_⟩)
    intro b hb
    exact (List.count_eq_length.mp hall b hb).symm

/-- A line map finds all positions and lines of a text that is not too long for its numbers. -/
theorem locates_ofSource (source : String) (hsize : source.utf8ByteSize < UInt32.size) :
    Locates source (ofSource source) where
  position _ hn := exists_lastStart source hn
  lineOf _ _ := rfl
  strictMonoOn := strictMonoOn_place source
  injOn _ hm _ hn heq := (strictMonoOn_place source).injOn hm hn (congrArg place heq)
  fits := ⟨fun _ hs => lt_of_mem_starts hs hsize, fun _ hn => position_lt source hn,
    lineCount_lt_or hsize⟩
  lineCount := lineCount_ofSource source
  lineText _ := exists_lineText?_eq
  lineText_none _ := lineText?_eq_none

/-- An offset may fall inside a character, or far past the end. -/
theorem locates_ofSource_mixed :
    let source := "é\r\n\n\rb"
    source.utf8ByteSize < UInt32.size ∧ (ofSource source).position 1 = ⟨1, 2⟩ ∧
      (ofSource source).position 90 = ⟨3, 86⟩ ∧ (ofSource source).lineText? 1 = some ['é'] ∧
      (ofSource source).lineText? 3 = some ['\r', 'b'] ∧ (ofSource source).lineText? 4 = none ∧
      Locates source (ofSource source) :=
  ⟨by decide, by decide +kernel, by decide +kernel, by decide, by decide, by decide,
    locates_ofSource _ (by decide)⟩

end LineMap

end LamScope
