import LamScope.Proofs.Token.Faults
import LamScope.Proofs.Token.Spacing

/-!
# Stray characters

A character that begins nothing separates what stands before it from what stands behind it, as a
blank does. Main statement: a text with blanks in place of such characters is scanned to the same
tokens at the same places.
-/
namespace LamScope

open Text

namespace Text

/-- Spaces, byte for byte, in place of the characters of a text that begin at some offsets; the text
begins at offset `start`. -/
def blanked (stray : Nat → Bool) (start : Nat) : List Char → List Char
  | [] => []
  | c :: cs =>
      let rest := blanked stray (start + c.utf8Size) cs
      if stray start then List.replicate c.utf8Size ' ' ++ rest else c :: rest

variable {stray : Nat → Bool} {start : Nat}

theorem blanked_nil (stray : Nat → Bool) (start : Nat) : blanked stray start [] = [] := rfl

theorem blanked_of_stray {c : Char} (h : stray start = true) (cs : List Char) :
    blanked stray start (c :: cs) =
      List.replicate c.utf8Size ' ' ++ blanked stray (start + c.utf8Size) cs := by
  rw [blanked, if_pos h]

/-- Characters that are not stray stay. -/
theorem blanked_append {cs : List Char}
    (h : ∀ offset, start ≤ offset → offset < start + byteLength cs → stray offset = false)
    (rest : List Char) :
    blanked stray start (cs ++ rest) = cs ++ blanked stray (start + byteLength cs) rest := by
  induction cs generalizing start with
  | nil => simp
  | cons c cs ih =>
      have hsize := c.utf8Size_pos
      have hfirst : stray start = false := h start (Nat.le_refl _) (by simp; omega)
      have hrest : blanked stray (start + c.utf8Size) (cs ++ rest) =
          cs ++ blanked stray (start + c.utf8Size + byteLength cs) rest :=
        ih fun offset hle hlt => h offset (by omega) (by rw [byteLength_cons]; omega)
      rw [List.cons_append, blanked, if_neg (by simp [hfirst]), hrest, byteLength_cons,
        ← Nat.add_assoc, List.cons_append]

/-- Up to its first blank the new text is the old one. -/
theorem isPrefix_of_isPrefix_blanked {run cs : List Char} (h : run <+: blanked stray start cs)
    (hrun : ∀ c ∈ run, Scan.isBlank c = false) : run <+: cs := by
  induction cs generalizing start run with
  | nil => exact h
  | cons c cs ih =>
      cases run with
      | nil => exact List.nil_prefix
      | cons d run =>
          by_cases hstray : stray start = true
          · obtain ⟨n, hn⟩ := Nat.exists_eq_succ_of_ne_zero c.utf8Size_pos.ne'
            rw [blanked_of_stray hstray, hn, List.replicate_succ, List.cons_append] at h
            obtain ⟨rfl, -⟩ := List.cons_prefix_cons.mp h
            cases hrun ' ' List.mem_cons_self
          · rw [blanked, if_neg hstray] at h
            obtain ⟨rfl, htail⟩ := List.cons_prefix_cons.mp h
            exact List.cons_prefix_cons.mpr
              ⟨rfl, ih htail fun e he => hrun e (List.mem_cons_of_mem _ he)⟩

end Text

namespace Scan
variable {stray : Nat → Bool} {p : Place} {c : Char} {cs : List Char}

/-- As many spaces as bytes lead to the same place. -/
theorem past_replicate (c : Char) (p : Place) :
    p.past (List.replicate c.utf8Size ' ') = p.past [c] := by
  simp [Place.past, byteLength_replicate]

/-- The offsets at which faults begin, as far as they lie from a place on. -/
def StrayFrom (stray : Nat → Bool) (p : Place) (cs : List Char) : Prop :=
  ∀ offset, p.offset ≤ offset →
    (stray offset = true ↔ ∃ f, .fault f ∈ items p cs ∧ f.span.start = offset)

section
variable {taken rest : List Char} {front : List Item}

/-- What is found behind a piece is found in the whole. -/
theorem mem_items_of_behind (hitems : items p (taken ++ rest) = front ++ items (p.past taken) rest)
    {i : Item} (hi : i ∈ items (p.past taken) rest) : i ∈ items p (taken ++ rest) := by
  rw [hitems]
  exact List.mem_append_right _ hi

theorem StrayFrom.behind (h : StrayFrom stray p (taken ++ rest))
    (hitems : items p (taken ++ rest) = front ++ items (p.past taken) rest)
    (hfront : ∀ i ∈ front, i.span.start < (p.past taken).offset) :
    StrayFrom stray (p.past taken) rest := by
  intro offset hle
  have hpast : p.offset ≤ (p.past taken).offset := Nat.le_add_right _ _
  rw [h offset (Nat.le_trans hpast hle), hitems]
  constructor
  · rintro ⟨f, hf, hstart⟩
    rcases List.mem_append.mp hf with hf | hf
    · have hlt : f.span.start < (p.past taken).offset := hfront _ hf
      omega
    · exact ⟨f, hf, hstart⟩
  · rintro ⟨f, hf, hstart⟩
    exact ⟨f, List.mem_append_right _ hf, hstart⟩

/-- Nothing is put in place of what holds no fault. -/
theorem StrayFrom.blanked_eq (h : StrayFrom stray p (taken ++ rest))
    (hitems : items p (taken ++ rest) = front ++ items (p.past taken) rest)
    (hfront : ∀ f, .fault f ∉ front) :
    blanked stray p.offset (taken ++ rest) = taken ++ blanked stray (p.past taken).offset rest := by
  refine blanked_append (fun offset hle hlt => ?_) rest
  rw [← Bool.not_eq_true, h offset hle, hitems]
  rintro ⟨f, hf, hstart⟩
  rcases List.mem_append.mp hf with hf | hf
  · exact hfront f hf
  · have hge : (p.past taken).offset ≤ f.span.start := ((pairwise_items _ rest).1 _ hf).1
    have hoffset : (p.past taken).offset = p.offset + byteLength taken := rfl
    omega

end

/-- What is left of the things found if faults are put away. -/
def tokensOnly (is : List Item) : List Item := (is.filterMap Item.token?).map .token

theorem tokensOnly_append (is js : List Item) :
    tokensOnly (is ++ js) = tokensOnly is ++ tokensOnly js := by
  rw [tokensOnly, List.filterMap_append, List.map_append]
  rfl

theorem tokensOnly_eq_self {is : List Item} (h : ∀ f, .fault f ∉ is) : tokensOnly is = is := by
  induction is with
  | nil => rfl
  | cons i is ih =>
      cases i with
      | token t => exact congrArg _ (ih fun f hf => h f (List.mem_cons_of_mem _ hf))
      | fault f => exact absurd List.mem_cons_self (h f)

theorem filterMap_fault?_tokensOnly (is : List Item) :
    (tokensOnly is).filterMap Item.fault? = [] := by
  rw [tokensOnly, List.filterMap_map]
  exact List.filterMap_eq_nil_iff.mpr fun t _ => rfl

theorem filterMap_token?_tokensOnly (is : List Item) :
    (tokensOnly is).filterMap Item.token? = is.filterMap Item.token? := by
  rw [tokensOnly, List.filterMap_map]
  exact List.filterMap_some

/-- A piece in which nothing is stray is found again if it is found before the new rest. -/
theorem items_blanked_of_kept {taken rest : List Char} {front : List Item}
    (h : StrayFrom stray p (taken ++ rest))
    (hitems : items p (taken ++ rest) = front ++ items (p.past taken) rest)
    (hfront : ∀ f, .fault f ∉ front)
    (hfound : items p (taken ++ blanked stray (p.past taken).offset rest) =
      front ++ items (p.past taken) (blanked stray (p.past taken).offset rest))
    (hrest : items (p.past taken) (blanked stray (p.past taken).offset rest) =
      tokensOnly (items (p.past taken) rest)) :
    items p (blanked stray p.offset (taken ++ rest)) = tokensOnly (items p (taken ++ rest)) := by
  rw [h.blanked_eq hitems hfront, hfound, hrest, hitems, tokensOnly_append,
    tokensOnly_eq_self hfront]

theorem offset_lt_past (p : Place) (hcs : cs ≠ []) : p.offset < (p.past cs).offset := by
  obtain ⟨c, cs, rfl⟩ := List.exists_cons_of_ne_nil hcs
  have hsize := c.utf8Size_pos
  simp only [Place.past, byteLength_cons]
  omega

/-- A newline is not stray. -/
theorem StrayFrom.stops (h : StrayFrom stray p cs) (hend : Stops (· != '\n') cs) :
    Stops (· != '\n') (blanked stray p.offset cs) := by
  cases cs with
  | nil => exact stops_nil
  | cons c cs =>
      have hc : c = '\n' := by simpa using hend c rfl
      subst hc
      have hitems : items p (['\n'] ++ cs) = [] ++ items (p.past ['\n']) cs :=
        items_of_isBlank p (by decide) cs
      have hkept := StrayFrom.blanked_eq h hitems fun f => List.not_mem_nil
      rw [List.singleton_append] at hkept
      rw [hkept]
      exact stops_cons (by decide) _

/-- Blanks in place of stray characters leave the tokens that are found, and no faults. -/
theorem items_blanked (p : Place) (cs : List Char) (hstray : StrayFrom stray p cs)
    (hfaults : ∀ f, .fault f ∈ items p cs → f.cause ≠ .unterminatedString) :
    items p (blanked stray p.offset cs) = tokensOnly (items p cs) := by
  induction p, cs using piece_induction with
  | nil p =>
      rw [blanked_nil, items_nil]
      rfl
  | blank p c cs hblank ih =>
      have hitems : items p ([c] ++ cs) = [] ++ items (p.past [c]) cs :=
        items_of_isBlank p hblank cs
      have hbehind := StrayFrom.behind hstray hitems (List.forall_mem_nil _)
      exact items_blanked_of_kept hstray hitems (fun f => List.not_mem_nil)
        (items_of_isBlank p hblank _)
        (ih hbehind fun f hf => hfaults f (mem_items_of_behind hitems hf))
  | token p lexeme rest kind hmunch ih =>
      have hitems : items p (lexeme ++ rest) = [.token _] ++ items (p.past lexeme) rest :=
        items_munch hmunch p
      have hne : lexeme ≠ [] := by
        obtain ⟨c, cs, rfl, -⟩ := hmunch.written.exists_cons
        exact List.cons_ne_nil c cs
      have hbehind := hstray.behind hitems
        (List.forall_mem_singleton.mpr (offset_lt_past p hne))
      -- up to the next blank nothing is new behind the token
      have hagain : Munch lexeme (blanked stray (p.past lexeme).offset rest) kind :=
        hmunch.congr_rest fun run => isPrefix_of_isPrefix_blanked
      exact items_blanked_of_kept hstray hitems (by simp) (items_munch hagain p)
        (ih hbehind fun f hf => hfaults f (mem_items_of_behind hitems hf))
  | comment p body rest hbody hend ih =>
      have hitems : items p ('/' :: '/' :: body ++ rest) =
          [] ++ items (p.past ('/' :: '/' :: body)) rest := items_comment hbody hend p
      have hbehind := hstray.behind hitems (List.forall_mem_nil _)
      exact items_blanked_of_kept hstray hitems (fun f => List.not_mem_nil)
        (items_comment hbody (hbehind.stops hend) p)
        (ih hbehind fun f hf => hfaults f (mem_items_of_behind hitems hf))
  | fault p taken rest cause htakes hitems ih =>
      have hmem : .fault ⟨cause, p.line, ⟨p.offset, (p.past taken).offset⟩⟩ ∈
          items p (taken ++ rest) := by
        rw [hitems]
        exact List.mem_cons_self
      have hhere : stray p.offset = true := (hstray p.offset (Nat.le_refl _)).mpr ⟨_, hmem, rfl⟩
      cases htakes with
      | string => exact absurd rfl (hfaults _ hmem)
      | @character c hc =>
          have hsplit : items p ([c] ++ rest) = [.fault _] ++ items (p.past [c]) rest := hitems
          have hbehind := StrayFrom.behind hstray hsplit
            (List.forall_mem_singleton.mpr (offset_lt_past p (List.cons_ne_nil c [])))
          rw [List.singleton_append] at hitems ⊢
          rw [blanked_of_stray hhere, items_replicate, past_replicate, hitems]
          exact ih hbehind fun f hf => hfaults f (mem_items_of_behind hsplit hf)

/-- Two characters that begin at one offset are one. -/
theorem eq_of_byteLength_eq {before before' after after' : List Char} {c d : Char}
    (htext : before ++ c :: after = before' ++ d :: after')
    (h : byteLength before = byteLength before') : c = d := by
  have hfirst : before <+: before ++ c :: after := List.prefix_append _ _
  have hsecond : before' <+: before ++ c :: after := htext ▸ List.prefix_append _ _
  have hprefix := isPrefix_of_byteLength_le hfirst hsecond h.le
  have hprefix' := isPrefix_of_byteLength_le hsecond hfirst h.ge
  obtain rfl := hprefix.eq_of_length_le hprefix'.length_le
  exact (List.cons.inj (List.append_cancel_left htext)).1

/-- The newlines of the new text are where those of the old one are. -/
theorem startsAfter_blanked (offset : Nat) (cs : List Char)
    (h : ∀ before c after, cs = before ++ c :: after →
      stray (offset + byteLength before) = true → c ≠ '\n') :
    LineMap.startsAfter offset (blanked stray offset cs) = LineMap.startsAfter offset cs := by
  induction cs generalizing offset with
  | nil => rfl
  | cons c cs ih =>
      have hrest := ih (offset + c.utf8Size) fun before d after htext hstray =>
        h (c :: before) d after (congrArg _ htext) (by rwa [byteLength_cons, ← Nat.add_assoc])
      by_cases hstray : stray offset = true
      · have hc : c ≠ '\n' := h [] c cs rfl hstray
        have hnone : '\n' ∉ List.replicate c.utf8Size ' ' := fun hmem =>
          absurd (List.eq_of_mem_replicate hmem) (by decide)
        rw [blanked_of_stray hstray, LineMap.startsAfter_append, LineMap.startsAfter_eq_nil hnone,
          List.nil_append, byteLength_replicate, hrest, LineMap.startsAfter, if_neg hc]
      · rw [blanked, if_neg hstray, LineMap.startsAfter, LineMap.startsAfter, hrest]

theorem byteLength_blanked (offset : Nat) (cs : List Char) :
    byteLength (blanked stray offset cs) = byteLength cs := by
  induction cs generalizing offset with
  | nil => rfl
  | cons c cs ih =>
      rw [blanked]
      split
      · rw [byteLength_append, byteLength_replicate, ih, byteLength_cons]
      · rw [byteLength_cons, ih, byteLength_cons]

/-- Newlines at the same offsets make the same lines. -/
theorem lineOf_congr {text text' : List Char}
    (h : LineMap.startsAfter 0 text' = LineMap.startsAfter 0 text) (offset : Nat) :
    (LineMap.ofText text').lineOf offset = (LineMap.ofText text).lineOf offset := by
  unfold LineMap.lineOf LineMap.indexOf LineMap.ofText
  rw [h]

variable {source : String}

/-- The text with as many spaces in place of every character that begins a fault as it has bytes. -/
def withoutStrays (source : String) : String :=
  String.ofList (blanked (fun offset => (ofSource source).faults.any (·.span.start == offset)) 0
    source.toList)

/-- A fault that is no open string is a character where its span says. -/
theorem exists_character {f : ScanFault} (hf : f ∈ (ofSource source).faults)
    (hcause : f.cause ≠ .unterminatedString) :
    ∃ before c after, source.toList = before ++ c :: after ∧ f.cause = .unexpectedCharacter c ∧
      f.span = ⟨byteLength before, byteLength before + c.utf8Size⟩ ∧ isBlank c = false := by
  obtain ⟨before, taken, after, htext, hspan, htakes⟩ :=
    explained_found (mem_items_of_mem_faults hf)
  generalize hkind : f.cause = cause at htakes
  cases htakes with
  | @character c hc => exact ⟨before, c, after, htext, rfl, by simpa using hspan, hc⟩
  | string => exact absurd hkind hcause

/-- In a text with fewer faults than end a scan and no open string every fault is one character.
With spaces in place of these the text is scanned without a fault, to the same tokens. -/
theorem tokens_withoutStrays (hfew : (ofSource source).faults.length < 20)
    (hclosed : ∀ f ∈ (ofSource source).faults, f.cause ≠ .unterminatedString) :
    (∀ f ∈ (ofSource source).faults, ∃ before c after, source.toList = before ++ c :: after ∧
      f.cause = .unexpectedCharacter c ∧
      f.span = ⟨byteLength before, byteLength before + c.utf8Size⟩) ∧
    (ofSource (withoutStrays source)).faults = [] ∧
    (ofSource (withoutStrays source)).tokens = (ofSource source).tokens := by
  let stray : Nat → Bool := fun offset => (ofSource source).faults.any (·.span.start == offset)
  have hall : untilFault maxFaults (found source.toList) = found source.toList :=
    untilFault_eq_of_lt hfew
  have hmem {f : ScanFault} : .fault f ∈ found source.toList ↔
      f ∈ (ofSource source).faults := by
    refine ⟨fun hf => ?_, mem_items_of_mem_faults⟩
    rw [← hall] at hf
    exact List.mem_filterMap.mpr ⟨_, hf, rfl⟩
  have hstray : StrayFrom stray (.start source.toList) source.toList := by
    intro offset _
    rw [← found]
    simp [stray, hmem]
  have hitems : items (.start source.toList) (blanked stray 0 source.toList) =
      tokensOnly (found source.toList) :=
    items_blanked (.start source.toList) source.toList hstray fun f hf => hclosed f (hmem.mp hf)
  have htext : (withoutStrays source).toList = blanked stray 0 source.toList :=
    String.toList_ofList
  have hline : ∀ offset, (LineMap.ofText (withoutStrays source).toList).lineOf offset =
      (LineMap.ofText source.toList).lineOf offset := by
    refine lineOf_congr ?_
    rw [htext]
    refine startsAfter_blanked 0 source.toList fun before c after htext hhere => ?_
    rw [Nat.zero_add] at hhere
    obtain ⟨f, hf, hstart⟩ := (hstray _ (Nat.zero_le _)).mp hhere
    obtain ⟨before', d, after', htext', -, hspan, hd⟩ :=
      exists_character (hmem.mp hf) (hclosed f (hmem.mp hf))
    rw [hspan] at hstart
    rw [eq_of_byteLength_eq (htext.symm.trans htext') hstart.symm]
    rintro rfl
    cases hd
  have hmoves (cs : List Char) : Shift.zero.Moves cs (.start source.toList)
      (.start (withoutStrays source).toList) :=
    ⟨rfl, fun before _ => by rw [line_start_past, line_start_past, hline]; rfl⟩
  have hfound : found (withoutStrays source).toList = tokensOnly (found source.toList) := by
    rw [found, Shift.items_of_moves_zero (hmoves _), htext, hitems]
  have hend : endToken (withoutStrays source).toList = endToken source.toList := by
    have hlength : byteLength (withoutStrays source).toList = byteLength source.toList := by
      rw [htext, byteLength_blanked]
    unfold endToken
    dsimp only
    rw [line_start_past, line_start_past, offset_start_past, offset_start_past, hline, hlength]
  have hclean : (found (withoutStrays source).toList).filterMap Item.fault? = [] := by
    rw [hfound, filterMap_fault?_tokensOnly]
  refine ⟨fun f hf => ?_, by rw [ofSource_eq hclean], ?_⟩
  · obtain ⟨before, c, after, htext, hcause, hspan, -⟩ := exists_character hf (hclosed f hf)
    exact ⟨before, c, after, htext, hcause, hspan⟩
  · rw [ofSource_eq hclean, allTokens, hfound, filterMap_token?_tokensOnly, hend]
    unfold ofSource
    rw [hall]

/-- Stray characters of one byte and of two, in a number, in a name, in an operator, between
slashes and next to a quote. -/
theorem tokens_withoutStrays_dense :
    let source := "1.#5é_a=é= /#/ //#\n@\"#\"~"
    withoutStrays source = "1. 5  _a=  = / / //#\n \"#\" " ∧
      (ofSource source).faults.length = 6 ∧
      (ofSource (withoutStrays source)).faults = [] ∧
      (ofSource (withoutStrays source)).tokens = (ofSource source).tokens :=
  ⟨by decide +kernel, by decide +kernel,
    (tokens_withoutStrays (by decide +kernel) (by decide +kernel)).2⟩

end Scan

end LamScope
