import LamScope.Proofs.Reading.Shift
import LamScope.Proofs.Text.Lines
import LamScope.Token.Scan

/-!
# Texts behind texts

A newline ends whatever piece stands before it, unless that is a string. So the pieces of a
faultless text stay what they are if a newline and more text are put behind it, and the pieces of
the text behind are those it has alone, at places moved by what stands before.
-/
namespace LamScope

namespace Scan
variable {p : Place} {c : Char} {cs more : List Char}

theorem Place.past_nil (p : Place) : p.past [] = p := by
  simp [past]

theorem Place.past_append (p : Place) (cs ds : List Char) :
    p.past (cs ++ ds) = (p.past cs).past ds := by
  simp [past, Nat.add_assoc]

theorem items_nil (p : Place) : items p [] = [] := by
  rw [items]

theorem items_cons (p : Place) (c : Char) (cs : List Char) :
    items p (c :: cs) = ((cut c cs).item? p).toList ++
      items (p.past (cut c cs).taken) (cut c cs).rest := by
  rw [items]

theorem cut_of_isBlank (hc : isBlank c = true) (cs : List Char) :
    cut c cs = ⟨.gap, c :: cs.takeWhile isBlank, cs.dropWhile isBlank⟩ := by
  unfold cut
  rw [if_pos hc]

/-- A gap of blanks need not be looked at as a whole. -/
theorem items_of_isBlank (p : Place) (hc : isBlank c = true) (cs : List Char) :
    items p (c :: cs) = items (p.past [c]) cs := by
  have hall : items p (c :: cs) =
      items (p.past (c :: cs.takeWhile isBlank)) (cs.dropWhile isBlank) := by
    rw [items_cons, cut_of_isBlank hc]
    rfl
  rw [hall, ← List.singleton_append, Place.past_append]
  cases cs with
  | nil => rw [List.takeWhile_nil, List.dropWhile_nil, Place.past_nil]
  | cons d ds =>
      cases hd : isBlank d with
      | false => rw [List.takeWhile_cons_of_neg (by simp [hd]),
          List.dropWhile_cons_of_neg (by simp [hd]), Place.past_nil]
      | true =>
          rw [List.takeWhile_cons_of_pos hd, List.dropWhile_cons_of_pos hd, items_cons (c := d),
            cut_of_isBlank hd]
          rfl

theorem items_replicate (p : Place) (n : Nat) (cs : List Char) :
    items p (List.replicate n ' ' ++ cs) = items (p.past (List.replicate n ' ')) cs := by
  induction n generalizing p with
  | zero => rw [List.replicate_zero, Place.past_nil]; rfl
  | succ n ih =>
      rw [List.replicate_succ, List.cons_append, items_of_isBlank p (by decide), ih,
        ← Place.past_append]
      rfl

section
variable {f : Char → Bool} {d : Char}

theorem takeWhile_append_cons (h : f d = false) (cs ds : List Char) :
    (cs ++ d :: ds).takeWhile f = cs.takeWhile f := by
  induction cs with
  | nil => simp [h]
  | cons c cs ih => simp [List.takeWhile_cons, ih]

theorem dropWhile_append_cons (h : f d = false) (cs ds : List Char) :
    (cs ++ d :: ds).dropWhile f = cs.dropWhile f ++ d :: ds := by
  induction cs with
  | nil => simp [h]
  | cons c cs ih =>
      rw [List.cons_append, List.dropWhile_cons, List.dropWhile_cons, ih]
      split <;> rfl

theorem takeWhile_append_of_dropWhile {cs rest : List Char} (h : cs.dropWhile f = d :: rest)
    (more : List Char) : (cs ++ more).takeWhile f = cs.takeWhile f ∧
      (cs ++ more).dropWhile f = d :: (rest ++ more) := by
  induction cs with
  | nil => cases h
  | cons c cs ih =>
      rw [List.dropWhile_cons] at h
      rw [List.cons_append, List.takeWhile_cons, List.takeWhile_cons, List.dropWhile_cons]
      split at h
      · obtain ⟨htake, hdrop⟩ := ih h
        simp_all
      · cases h
        simp_all

end

theorem cutNumber_append_newline (cs more : List Char) :
    cutNumber (cs ++ '\n' :: more) = ((cutNumber cs).1, (cutNumber cs).2 ++ '\n' :: more) := by
  have hd : Char.isDigit '\n' = false := by decide
  unfold cutNumber
  rw [takeWhile_append_cons hd, dropWhile_append_cons hd]
  cases cs.dropWhile Char.isDigit with
  | nil => rfl
  | cons c after =>
      by_cases hc : c = '.'
      · subst hc
        simp only [List.cons_append, takeWhile_append_cons hd, dropWhile_append_cons hd]
        split <;> rfl
      · simp [hc]

/-- Only a gap of blanks and a string that is not closed would go on behind a newline. -/
theorem cut_append_newline (hc : isBlank c = false)
    (hclosed : (cut c cs).piece ≠ .fault .unterminatedString) (more : List Char) :
    cut c (cs ++ '\n' :: more) =
      ⟨(cut c cs).piece, (cut c cs).taken, (cut c cs).rest ++ '\n' :: more⟩ := by
  have hslash : (cs ++ '\n' :: more).head? = some '/' ↔ cs.head? = some '/' := by
    cases cs <;> simp
  unfold cut at hclosed ⊢
  simp only [hc, Bool.false_eq_true, if_false, hslash] at hclosed ⊢
  by_cases hname : isNameStart c = true
  · have hnext : isNamePart '\n' = false := by decide
    simp only [if_pos hname, takeWhile_append_cons hnext, dropWhile_append_cons hnext]
  simp only [if_neg hname] at hclosed ⊢
  by_cases hdigit : c.isDigit = true
  · simp only [if_pos hdigit, cutNumber_append_newline]
  simp only [if_neg hdigit] at hclosed ⊢
  by_cases hquote : c = '"'
  · simp only [if_pos hquote] at hclosed ⊢
    cases hs : cs.dropWhile (· != '"') with
    | nil => simp [hs] at hclosed
    | cons quote rest =>
        obtain ⟨htake, hdrop⟩ := takeWhile_append_of_dropWhile hs ('\n' :: more)
        rw [htake, hdrop]
  simp only [if_neg hquote]
  by_cases hcomment : c = '/' ∧ cs.head? = some '/'
  · simp only [if_pos hcomment]
    rw [takeWhile_append_cons (by decide), dropWhile_append_cons (by decide)]
  simp only [if_neg hcomment]
  cases cs with
  | nil => cases Symbol.withEqual? c <;> cases Symbol.single? c <;> rfl
  | cons d ds =>
      by_cases hd : d = '='
      · subst hd
        cases Symbol.withEqual? c <;> cases Symbol.single? c <;> rfl
      · cases Symbol.withEqual? c <;> cases Symbol.single? c <;> simp [hd]

/-- Pieces found before a newline are those found without what stands behind. -/
theorem items_append_newline (p : Place) (cs more : List Char)
    (hclean : (items p cs).filterMap Item.fault? = []) :
    items p (cs ++ '\n' :: more) = items p cs ++ items (p.past (cs ++ ['\n'])) more := by
  match cs with
  | [] => rw [List.nil_append, items_of_isBlank p (by decide), items_nil]; rfl
  | c :: cs =>
      rw [List.cons_append]
      by_cases hc : isBlank c = true
      · rw [items_of_isBlank p hc] at hclean ⊢
        rw [items_of_isBlank p hc, items_append_newline (p.past [c]) cs more hclean,
          ← Place.past_append]
        rfl
      · rw [Bool.not_eq_true] at hc
        rw [items_cons, List.filterMap_append, List.append_eq_nil_iff] at hclean
        have hclosed : (cut c cs).piece ≠ .fault .unterminatedString := by
          intro hpiece
          simp [Cut.item?, hpiece, Item.fault?] at hclean
        have hrest := items_append_newline (p.past (cut c cs).taken) (cut c cs).rest more hclean.2
        rw [items_cons, items_cons, cut_append_newline hc hclosed]
        dsimp only
        rw [hrest, ← Place.past_append, ← List.append_assoc, ← List.append_assoc, cut_append]
        rfl
termination_by cs.length
decreasing_by
  · exact Nat.lt_succ_self _
  · exact cut_rest_length c cs

end Scan

namespace Shift

def scanFault (g : Shift) (f : ScanFault) : ScanFault := ⟨f.cause, f.line + g.line, g.span f.span⟩

def item (g : Shift) : Scan.Item → Scan.Item
  | .token t => .token (g.token t)
  | .fault f => .fault (g.scanFault f)

@[simp] theorem item_zero (i : Scan.Item) : zero.item i = i := by
  cases i <;> rfl

/-- The text from the second place on is moved, and so are its lines. -/
structure Moves (g : Shift) (cs : List Char) (p q : Scan.Place) : Prop where
  offset : q.offset = p.offset + g.offset
  line : ∀ before, before <+: cs → (q.past before).line = (p.past before).line + g.line

variable {g : Shift} {p q : Scan.Place}

theorem Moves.offset_past {cs : List Char} (h : g.Moves cs p q) (taken : List Char) :
    (q.past taken).offset = (p.past taken).offset + g.offset := by
  show q.offset + _ = p.offset + _ + g.offset
  rw [h.offset, Nat.add_right_comm]

theorem Moves.past {taken rest : List Char} (h : g.Moves (taken ++ rest) p q) :
    g.Moves rest (p.past taken) (q.past taken) where
  offset := h.offset_past taken
  line before hbefore := by
    rw [← Scan.Place.past_append, ← Scan.Place.past_append]
    exact h.line _ ((List.prefix_append_right_inj taken).mpr hbefore)

theorem items_of_moves {cs : List Char} (h : g.Moves cs p q) :
    Scan.items q cs = (Scan.items p cs).map g.item := by
  induction p, cs using Scan.items.induct generalizing q with
  | case1 p => rw [Scan.items_nil, Scan.items_nil, List.map_nil]
  | case2 p c cs k =>
      rename_i ih
      have hline : q.line = p.line + g.line := by
        have hline := h.line [] List.nil_prefix
        rwa [Scan.Place.past_nil, Scan.Place.past_nil] at hline
      rw [← Scan.cut_append] at h
      have hitem : k.item? q = (k.item? p).map g.item := by
        unfold Scan.Cut.item?
        rw [h.offset_past, h.offset, hline]
        cases k.piece <;> rfl
      rw [Scan.items_cons, Scan.items_cons, ih h.past, List.map_append, hitem]
      cases k.item? p <;> rfl

/-- At the same offset, in lines that are the same as far as the text goes, the same is found. -/
theorem items_of_moves_zero {cs : List Char} (h : zero.Moves cs p q) :
    Scan.items q cs = Scan.items p cs := by
  rw [items_of_moves h]
  exact List.map_id'' item_zero _

end Shift

namespace Scan

/-- The end of the file is no piece of the text. -/
theorem kind_cut_ne_endOfFile {c : Char} {cs : List Char} {kind : TokenKind}
    (h : (cut c cs).piece = .token kind) : kind ≠ .endOfFile := by
  rintro rfl
  unfold cut at h
  split at h
  · cases h
  split at h
  · unfold wordKind at h
    dsimp only at h
    split at h <;> cases h
  split at h
  · unfold numberPiece at h
    dsimp only at h
    split at h <;> cases h
  split at h
  · dsimp only at h
    split at h <;> cases h
  split at h
  · cases h
  split at h
  · cases h
  · split at h <;> cases h

theorem kind_of_mem_items {p : Place} {cs : List Char} {t : Token} (h : .token t ∈ items p cs) :
    t.kind ≠ .endOfFile := by
  fun_induction items p cs with
  | case1 p => cases h
  | case2 p c cs k ih =>
      rcases List.mem_append.mp h with h | h
      · cases hk : k.piece with
        | token kind =>
            have hkind := kind_cut_ne_endOfFile hk
            simp [Cut.item?, hk] at h
            simpa [h] using hkind
        | gap | fault => simp [Cut.item?, hk] at h
      · exact ih h

theorem untilFault_of_faults_eq_nil {n : Nat} {is : List Item}
    (h : is.filterMap Item.fault? = []) : untilFault (n + 1) is = is := by
  induction is with
  | nil => rfl
  | cons i is ih =>
      cases i with
      | token t => exact congrArg _ (ih h)
      | fault f => cases h

/-- Where no fault was found none is left to be found. -/
theorem filterMap_fault?_of_untilFault {n : Nat} {is : List Item}
    (h : (untilFault (n + 1) is).filterMap Item.fault? = []) : is.filterMap Item.fault? = [] := by
  induction is with
  | nil => rfl
  | cons i is ih =>
      cases i with
      | token t => exact ih h
      | fault f => cases h

/-- The tokens of a text, wherever scanning it would give up. -/
def allTokens (source : String) : List Token := (found source.toList).filterMap Item.token?

theorem kind_of_mem_allTokens {source : String} {t : Token} (h : t ∈ allTokens source) :
    t.kind ≠ .endOfFile := by
  obtain ⟨i, hi, ht⟩ := List.mem_filterMap.mp h
  cases i with
  | token u =>
      cases ht
      exact kind_of_mem_items hi
  | fault f => cases ht

variable {source first second : String}

theorem filterMap_fault?_of_faults_eq_nil (h : (ofSource source).faults = []) :
    (found source.toList).filterMap Item.fault? = [] :=
  filterMap_fault?_of_untilFault h

theorem ofSource_eq (h : (found source.toList).filterMap Item.fault? = []) :
    ofSource source = ⟨allTokens source ++ [endToken source.toList], []⟩ := by
  unfold ofSource maxFaults allTokens
  dsimp only
  rw [untilFault_of_faults_eq_nil h, h]

/-- By how much the text behind a first one and a newline is moved; its nodes are numbered from `id`
on. -/
def shiftBehind (first : String) (id : Nat) : Shift :=
  ⟨Text.byteLength first.toList + 1, first.toList.count '\n' + 1, id⟩

theorem offset_start_past (cs before : List Char) :
    ((Place.start cs).past before).offset = Text.byteLength before := Nat.zero_add _

theorem line_start_past (cs before : List Char) :
    ((Place.start cs).past before).line =
      (LineMap.ofText cs).lineOf (Text.byteLength before) := by
  rw [← offset_start_past cs before]
  rfl

/-- The line of a place is one more than the number of newlines before it. -/
theorem line_start_past_of_lt {cs before after : List Char} (h : cs = before ++ after)
    (hsize : Text.byteLength cs < UInt32.size) :
    ((Place.start cs).past before).line = before.count '\n' + 1 := by
  rw [line_start_past, LineMap.lineOf_ofText h hsize]

section
variable (hsize : Text.byteLength (first ++ "\n" ++ second).toList < UInt32.size)
include hsize

theorem moves_first : Shift.zero.Moves first.toList (.start first.toList)
    (.start (first ++ "\n" ++ second).toList) where
  offset := rfl
  line before hbefore := by
    obtain ⟨after, hfirst⟩ := hbefore
    have htext : (first ++ "\n" ++ second).toList =
        before ++ (after ++ '\n' :: second.toList) := by
      simp [← hfirst]
    have hlt : Text.byteLength first.toList < UInt32.size := by
      simp only [String.toList_append, Text.byteLength_append] at hsize
      omega
    rw [line_start_past_of_lt htext hsize, line_start_past_of_lt hfirst.symm hlt]
    rfl

theorem moves_second (id : Nat) :
    (shiftBehind first id).Moves second.toList (.start second.toList)
      ((Place.start (first ++ "\n" ++ second).toList).past (first.toList ++ ['\n'])) where
  offset := by
    rw [offset_start_past, Text.byteLength_append]
    exact (Nat.zero_add _).symm
  line before hbefore := by
    obtain ⟨after, hsecond⟩ := hbefore
    have htext : (first ++ "\n" ++ second).toList =
        first.toList ++ ['\n'] ++ before ++ after := by
      simp [← hsecond]
    have hlt : Text.byteLength second.toList < UInt32.size := by
      simp only [String.toList_append, Text.byteLength_append] at hsize
      omega
    rw [← Place.past_append, line_start_past_of_lt htext hsize,
      line_start_past_of_lt hsecond.symm hlt]
    simp [shiftBehind]
    omega

/-- Behind a faultless text and a newline a faultless text is scanned as it is alone, moved. -/
theorem ofSource_append_newline (hfirst : (ofSource first).faults = [])
    (hsecond : (ofSource second).faults = []) (id : Nat) :
    ofSource (first ++ "\n" ++ second) =
      ⟨allTokens first ++ (allTokens second).map (shiftBehind first id).token ++
        [(shiftBehind first id).token (endToken second.toList)], []⟩ := by
  have htext : (first ++ "\n" ++ second).toList = first.toList ++ '\n' :: second.toList := by
    simp
  have hmoves := moves_second hsize id
  have hclean := filterMap_fault?_of_faults_eq_nil hfirst
  have hitems : found (first ++ "\n" ++ second).toList = found first.toList ++
      (found second.toList).map (shiftBehind first id).item := by
    have hsame := Shift.items_of_moves_zero (moves_first hsize)
    have hall := items_append_newline (.start (first ++ "\n" ++ second).toList) first.toList
      second.toList (by rw [hsame]; exact hclean)
    rw [hsame, Shift.items_of_moves hmoves, ← htext] at hall
    exact hall
  have htokens : allTokens (first ++ "\n" ++ second) =
      allTokens first ++ (allTokens second).map (shiftBehind first id).token := by
    unfold allTokens
    have hmoved : Item.token? ∘ (shiftBehind first id).item =
        fun i => i.token?.map (shiftBehind first id).token := by
      funext i
      cases i <;> rfl
    rw [hitems, List.filterMap_append, List.filterMap_map, List.map_filterMap, hmoved]
  have hfaults : (found (first ++ "\n" ++ second).toList).filterMap Item.fault? = [] := by
    rw [hitems, List.filterMap_append, hclean, List.nil_append, List.filterMap_map]
    refine List.filterMap_eq_nil_iff.mpr fun i hi => ?_
    have hnone := List.filterMap_eq_nil_iff.mp (filterMap_fault?_of_faults_eq_nil hsecond) i hi
    cases i with
    | token t => rfl
    | fault f => cases hnone
  have hend : endToken (first ++ "\n" ++ second).toList =
      (shiftBehind first id).token (endToken second.toList) := by
    have hlast : (Place.start (first ++ "\n" ++ second).toList).past
        (first ++ "\n" ++ second).toList =
          ((Place.start (first ++ "\n" ++ second).toList).past (first.toList ++ ['\n'])).past
            second.toList := by
      rw [← Place.past_append]
      simp
    unfold endToken
    rw [hlast]
    dsimp only
    rw [hmoves.line _ List.prefix_rfl, hmoves.offset_past]
    rfl
  rw [ofSource_eq hfaults, htokens, hend]

end

end Scan

end LamScope
