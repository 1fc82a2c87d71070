import LamScope.Proofs.Token.Munch
import Mathlib.Data.List.Pairwise

/-!
# Faults of a scan

A fault is a single character that begins nothing, or a quote that no other one follows, with the
rest of the text. Main statement: tokens and faults lie apart from one another and in order, and
unless the scan gave up, what they leave of the text is blanks and comments.
-/
namespace LamScope

open Text

/-- What a fault takes from the front of a text, and what is left of the text. -/
inductive ScanFault.Cause.Takes : Cause → List Char → List Char → Prop
  | character {c : Char} (hc : Scan.isBlank c = false) (rest : List Char) :
      Takes (.unexpectedCharacter c) [c] rest
  | string {body : List Char} (h : '"' ∉ body) : Takes .unterminatedString ('"' :: body) []

theorem ScanFault.Cause.Takes.exists_body {taken rest : List Char}
    (h : Takes .unterminatedString taken rest) :
    ∃ body, taken = '"' :: body ∧ '"' ∉ body ∧ rest = [] := by
  cases h with
  | string h => exact ⟨_, rfl, h, rfl⟩

namespace Scan
variable {c : Char} {cs : List Char} {cause : ScanFault.Cause}

theorem takes_other (hc : Other c) (hcomment : ¬ (c = '/' ∧ cs.head? = some '/'))
    (h : (cut c cs).piece = .fault cause) : cause.Takes (cut c cs).taken (cut c cs).rest := by
  have hcut := cut_other hc hcomment
  split at hcut
  · rw [hcut] at h
    cases h
  · split at hcut
    · rw [hcut] at h
      cases h
    · rw [hcut] at h ⊢
      cases h
      exact .character hc.blank _

theorem takes_cut (h : (cut c cs).piece = .fault cause) :
    cause.Takes (cut c cs).taken (cut c cs).rest := by
  by_cases hblank : isBlank c = true
  · rw [cut_of_isBlank hblank] at h
    cases h
  by_cases hname : isNameStart c = true
  · rw [cut_word hname] at h
    cases h
  by_cases hdigit : c.isDigit = true
  · obtain ⟨kind, hpiece, -⟩ := lexeme_number hdigit cs
    rw [cut_digit hdigit, hpiece] at h
    cases h
  by_cases hquote : c = '"'
  · subst hquote
    by_cases hclosed : '"' ∈ cs
    · obtain ⟨contents, rest, rfl, hcontents⟩ := List.eq_append_cons_of_mem hclosed
      rw [cut_string hcontents] at h
      cases h
    · rw [cut_open hclosed] at h ⊢
      cases h
      exact .string hclosed
  rw [Bool.not_eq_true] at hblank hname hdigit
  have hother : Other c := ⟨hblank, hname, hdigit, hquote⟩
  by_cases hcomment : c = '/' ∧ cs.head? = some '/'
  · obtain ⟨rfl, hnext⟩ := hcomment
    obtain ⟨cs, rfl⟩ := List.head?_eq_some_iff.mp hnext
    exact absurd (List.prefix_append ['/', '/'] cs) (not_comment (by simp [h]))
  · exact takes_other hother hcomment h

section
variable {rest : List Char}

theorem items_munch {lexeme : List Char} {kind : TokenKind} (h : Munch lexeme rest kind)
    (p : Place) :
    items p (lexeme ++ rest) =
      .token ⟨⟨String.ofList lexeme, p.line, ⟨p.offset, (p.past lexeme).offset⟩⟩, kind⟩ ::
        items (p.past lexeme) rest := by
  obtain ⟨c, cs, rfl, -⟩ := h.written.exists_cons
  rw [List.cons_append, items_cons, cut_munch h List.cons_append]
  rfl

theorem items_comment {body : List Char} (hbody : '\n' ∉ body)
    (hend : Stops (· != '\n') rest) (p : Place) :
    items p ('/' :: '/' :: body ++ rest) = items (p.past ('/' :: '/' :: body)) rest := by
  rw [List.cons_append, items_cons, List.cons_append, cut_comment hbody hend]
  rfl

theorem items_fault (h : (cut c cs).piece = .fault cause) (p : Place) :
    items p ((cut c cs).taken ++ (cut c cs).rest) =
      .fault ⟨cause, p.line, ⟨p.offset, (p.past (cut c cs).taken).offset⟩⟩ ::
        items (p.past (cut c cs).taken) (cut c cs).rest := by
  rw [cut_append, items_cons, Cut.item?, h]
  rfl

end

/-- A text is taken apart into blanks, tokens, comments and faults, so what holds of the empty text
and goes over from what stands behind one of these to the whole holds of every text. -/
theorem piece_induction {motive : Place → List Char → Prop} (nil : ∀ p, motive p [])
    (blank : ∀ p c cs, isBlank c = true → motive (p.past [c]) cs → motive p (c :: cs))
    (token : ∀ p lexeme rest kind, Munch lexeme rest kind →
      motive (p.past lexeme) rest → motive p (lexeme ++ rest))
    (comment : ∀ p body rest, '\n' ∉ body → Stops (· != '\n') rest →
      motive (p.past ('/' :: '/' :: body)) rest → motive p ('/' :: '/' :: body ++ rest))
    (fault : ∀ p taken rest cause, ScanFault.Cause.Takes cause taken rest →
      items p (taken ++ rest) =
        .fault ⟨cause, p.line, ⟨p.offset, (p.past taken).offset⟩⟩ :: items (p.past taken) rest →
      motive (p.past taken) rest → motive p (taken ++ rest))
    (p : Place) (cs : List Char) : motive p cs := by
  match cs with
  | [] => exact nil p
  | c :: cs =>
      by_cases hblank : isBlank c = true
      · exact blank p c cs hblank
          (piece_induction nil blank token comment fault (p.past [c]) cs)
      rw [Bool.not_eq_true] at hblank
      have hrest := piece_induction nil blank token comment fault (p.past (cut c cs).taken)
        (cut c cs).rest
      rcases front hblank cs with ⟨kind, hpiece, -⟩ | ⟨body, rest, hbody, hend, htext⟩ |
        ⟨cause, hpiece⟩
      · rw [← cut_append c cs]
        exact token p _ _ kind (munch_cut hpiece) hrest
      · cases htext
        rw [cut_comment hbody hend] at hrest
        exact comment p body rest hbody hend hrest
      · rw [← cut_append c cs]
        exact fault p _ _ cause (takes_cut hpiece) (items_fault hpiece p) hrest
termination_by cs.length
decreasing_by
  · exact Nat.lt_succ_self _
  · exact cut_rest_length c cs

end Scan

/-- The fault stands in the text, and has taken there what its cause says. -/
def ScanFault.Explained (cs : List Char) (f : ScanFault) : Prop :=
  ∃ before taken after, cs = before ++ (taken ++ after) ∧
    f.span = ⟨byteLength before, byteLength (before ++ taken)⟩ ∧ f.cause.Takes taken after

/-- The byte at an offset. -/
def Span.Touches (a : Span) (offset : Nat) : Prop := a.start ≤ offset ∧ offset < a.stop

/-- No byte lies in both. -/
def Span.Disjoint (a b : Span) : Prop := a.stop ≤ b.start ∨ b.stop ≤ a.start

theorem Span.Disjoint.symm {a b : Span} (h : a.Disjoint b) : b.Disjoint a := Or.symm h

namespace Scan

theorem explained_items {text : List Char} (p : Place) (cs : List Char) :
    ∀ before, p = (Place.start text).past before → text = before ++ cs →
      ∀ f, .fault f ∈ items p cs → f.Explained text := by
  fun_induction items p cs with
  | case1 p => exact fun before _ _ f hf => absurd hf List.not_mem_nil
  | case2 p c cs k ih =>
      rintro before rfl htext f hf
      rw [← cut_append c cs] at htext
      rcases List.mem_append.mp hf with hf | hf
      · cases hk : k.piece with
        | gap | token => simp [Cut.item?, hk] at hf
        | fault cause =>
            simp only [Cut.item?, hk, Option.toList_some, List.mem_singleton, Item.fault.injEq]
              at hf
            subst hf
            refine ⟨before, k.taken, k.rest, htext, ?_, takes_cut hk⟩
            simp only [← Place.past_append, offset_start_past]
      · refine ih (before ++ k.taken) (Place.past_append _ _ _).symm ?_ f hf
        rw [htext, List.append_assoc]

theorem explained_found {cs : List Char} {f : ScanFault} (h : .fault f ∈ found cs) :
    f.Explained cs :=
  explained_items (.start cs) cs [] rfl rfl f h

/-- In a text that begins at offset `start` the byte at another one lies in blanks or in a comment
that no span touches. -/
def GapAt (start : Nat) (cs : List Char) (spans : List Span) (offset : Nat) : Prop :=
  ∃ before gap after, cs = before ++ (gap ++ after) ∧ Gap gap after ∧
    let span : Span := ⟨start + byteLength before, start + byteLength (before ++ gap)⟩
    span.Touches offset ∧ ∀ other ∈ spans, other.Disjoint span

section
variable {start offset : Nat} {gap rest : List Char} {spans : List Span}

theorem gapAt_front (hgap : Gap gap rest) (hstart : start ≤ offset)
    (hstop : offset < start + byteLength gap)
    (hspans : ∀ other ∈ spans, start + byteLength gap ≤ other.start) :
    GapAt start (gap ++ rest) spans offset :=
  ⟨[], gap, rest, rfl, hgap, ⟨hstart, hstop⟩, fun other hother => .inr (hspans other hother)⟩

theorem GapAt.behind {taken : List Char} (h : GapAt (start + byteLength taken) rest spans offset)
    (front : List Span) (hfront : ∀ other ∈ front, other.stop ≤ start + byteLength taken) :
    GapAt start (taken ++ rest) (front ++ spans) offset := by
  obtain ⟨before, gap, after, rfl, hgap, ⟨hstart, hstop⟩, hspans⟩ := h
  refine ⟨taken ++ before, gap, after, by simp, hgap, ⟨?_, ?_⟩, fun other hother => ?_⟩
  · simpa [Nat.add_assoc] using hstart
  · simpa [Nat.add_assoc] using hstop
  · rcases List.mem_append.mp hother with hother | hother
    · have hle := hfront other hother
      left
      simp only [byteLength_append]
      omega
    · simpa [Span.Disjoint, Nat.add_assoc] using hspans other hother

end

/-- Every byte of a text that begins at a place lies in something found, or else in blanks or a
comment. -/
def Covered (p : Place) (cs : List Char) : Prop :=
  ∀ offset, p.offset ≤ offset → offset < p.offset + byteLength cs →
    (∃ i ∈ items p cs, i.span.Touches offset) ∨
      GapAt p.offset cs ((items p cs).map Item.span) offset

theorem covered_gap {p : Place} {gap rest : List Char} (hgap : Gap gap rest)
    (hitems : items p (gap ++ rest) = items (p.past gap) rest)
    (hrest : Covered (p.past gap) rest) : Covered p (gap ++ rest) := by
  intro offset hstart hstop
  rw [hitems]
  rcases Nat.lt_or_ge offset (p.past gap).offset with hlt | hge
  · right
    refine gapAt_front hgap hstart hlt fun other hother => ?_
    obtain ⟨i, hi, rfl⟩ := List.mem_map.mp hother
    exact ((pairwise_items (p.past gap) rest).1 i hi).1
  · rw [byteLength_append, ← Nat.add_assoc] at hstop
    refine (hrest offset hge hstop).imp_right fun h => ?_
    exact h.behind [] (List.forall_mem_nil _)

theorem covered_found {p : Place} {taken rest : List Char} {i : Item}
    (hitems : items p (taken ++ rest) = i :: items (p.past taken) rest)
    (hspan : i.span = ⟨p.offset, (p.past taken).offset⟩) (hrest : Covered (p.past taken) rest) :
    Covered p (taken ++ rest) := by
  intro offset hstart hstop
  rw [hitems]
  rcases Nat.lt_or_ge offset (p.past taken).offset with hlt | hge
  · exact .inl ⟨i, List.mem_cons_self, by rw [hspan]; exact ⟨hstart, hlt⟩⟩
  · rw [byteLength_append, ← Nat.add_assoc] at hstop
    rcases hrest offset hge hstop with ⟨j, hj, htouches⟩ | hgap
    · exact .inl ⟨j, List.mem_cons_of_mem i hj, htouches⟩
    · right
      exact hgap.behind [i.span] (by simp [hspan, Place.past])

theorem covered (p : Place) (cs : List Char) : Covered p cs := by
  induction p, cs using piece_induction with
  | nil p =>
      intro offset hstart hstop
      rw [byteLength_nil] at hstop
      omega
  | blank p c cs hblank ih =>
      have hgap : Gap [c] cs := .blank hblank (.nil cs)
      exact covered_gap hgap (items_of_isBlank p hblank cs) ih
  | token p lexeme rest kind hmunch ih => exact covered_found (items_munch hmunch p) rfl ih
  | comment p body rest hbody hend ih =>
      have hgap : Gap ('/' :: '/' :: (body ++ [])) rest := .comment hbody hend (.nil rest)
      rw [List.append_nil] at hgap
      exact covered_gap hgap (items_comment hbody hend p) ih
  | fault p taken rest cause _ hfound ih => exact covered_found hfound rfl ih

/-! ### What a scan keeps -/

/-- Where a token or fault stands, and in which line. -/
structure Spot where
  span : Span
  line : Nat

def spots (s : Scan) : List Spot :=
  s.tokens.map (fun t => ⟨t.span, t.line⟩) ++ s.faults.map fun f => ⟨f.span, f.line⟩

theorem length_faults_untilFault (n : Nat) (is : List Item) :
    ((untilFault n is).filterMap Item.fault?).length ≤ n := by
  induction is generalizing n with
  | nil => cases n <;> exact Nat.zero_le _
  | cons i is ih =>
      cases n with
      | zero => exact Nat.le_refl 0
      | succ n =>
          cases i with
          | token t => exact ih (n + 1)
          | fault f => exact Nat.succ_le_succ (ih n)

/-- Nothing is left out before the last fault that is kept. -/
theorem untilFault_eq_of_lt {n : Nat} {is : List Item}
    (h : ((untilFault n is).filterMap Item.fault?).length < n) : untilFault n is = is := by
  induction is generalizing n with
  | nil => cases n <;> rfl
  | cons i is ih =>
      cases n with
      | zero => cases h
      | succ n =>
          cases i with
          | token t => exact congrArg _ (ih h)
          | fault f => exact congrArg _ (ih (Nat.lt_of_succ_lt_succ h))

section
variable {source : String}

theorem subset_items (source : String) :
    untilFault maxFaults (found source.toList) ⊆ found source.toList :=
  (isPrefix_untilFault _ _).subset

theorem mem_items_of_mem_faults {f : ScanFault} (h : f ∈ (ofSource source).faults) :
    .fault f ∈ found source.toList := by
  obtain ⟨i, hi, hf⟩ := List.mem_filterMap.mp h
  cases i with
  | token t => cases hf
  | fault g =>
      cases hf
      exact subset_items source hi

theorem mem_items_of_mem_tokens {t : Token} (h : t ∈ (ofSource source).tokens) :
    .token t ∈ found source.toList ∨ t = endToken source.toList := by
  rcases List.mem_append.mp h with h | h
  · obtain ⟨i, hi, ht⟩ := List.mem_filterMap.mp h
    cases i with
    | token u =>
        cases ht
        exact .inl (subset_items source hi)
    | fault f => cases ht
  · exact .inr (List.mem_singleton.mp h)

/-- What is picked from the things found stands in their order. -/
theorem pairwise_picked {α : Type} {pick : Item → Option α} {span : α → Span}
    (hspan : ∀ i a, pick i = some a → i.span = span a) (source : String) :
    ((untilFault maxFaults (found source.toList)).filterMap pick).Pairwise fun a b =>
      (span a).stop ≤ (span b).start ∧ (span a).start < (span b).start := by
  obtain ⟨hplaces, hordered⟩ := pairwise_found source.toList
  have hkept := hordered.sublist (isPrefix_untilFault maxFaults _).sublist
  refine List.pairwise_filterMap.mpr (hkept.imp_of_mem ?_)
  intro i j hi _ hij a ha b hb
  have hnonempty := hplaces i (subset_items source hi)
  rw [hspan i a ha] at hij hnonempty
  rw [hspan j b hb] at hij
  exact ⟨hij, Nat.lt_of_lt_of_le hnonempty hij⟩

theorem Item.Stands.exists_holds {cs : List Char} {i : Item} (h : i.Stands cs) :
    ∃ line taken, i.span.Holds cs line taken := by
  cases i with
  | token t => exact ⟨t.line, _, h⟩
  | fault f =>
      obtain ⟨taken, hholds, -⟩ := h
      exact ⟨f.line, taken, hholds⟩

theorem stop_le_byteLength {cs taken : List Char} {span : Span} {line : Nat}
    (h : span.Holds cs line taken) : span.stop ≤ byteLength cs := by
  obtain ⟨before, after, rfl, -, rfl⟩ := h
  simp

/-- What is found is not empty and lies in the text. -/
theorem start_lt_stop_le {i : Item} (h : i ∈ found source.toList) :
    i.span.start < i.span.stop ∧ i.span.stop ≤ byteLength source.toList := by
  obtain ⟨line, taken, hholds⟩ := (stands_found source.toList i h).exists_holds
  exact ⟨(pairwise_found source.toList).1 i h, stop_le_byteLength hholds⟩

theorem count_of_holds {cs taken : List Char} {a : Span} {n : Nat} (h : a.Holds cs n taken)
    (hsize : byteLength cs < UInt32.size) :
    ∃ before, before <+: cs ∧ byteLength before = a.start ∧ n = before.count '\n' + 1 := by
  obtain ⟨before, after, htext, hline, rfl⟩ := h
  rw [List.append_assoc] at htext
  rw [LineMap.lineOf_ofText htext hsize] at hline
  exact ⟨before, ⟨taken ++ after, htext.symm⟩, rfl, hline⟩

/-- Of two places in a text the nearer one does not lie in a later line. -/
theorem line_le_of_start_le {cs taken taken' : List Char} {a b : Span} {m n : Nat}
    (hsize : byteLength cs < UInt32.size) (ha : a.Holds cs m taken) (hb : b.Holds cs n taken')
    (h : a.start ≤ b.start) : m ≤ n := by
  obtain ⟨before, hbefore, hstart, rfl⟩ := count_of_holds ha hsize
  obtain ⟨before', hbefore', hstart', rfl⟩ := count_of_holds hb hsize
  rw [← hstart, ← hstart'] at h
  have hcount := (isPrefix_of_byteLength_le hbefore hbefore' h).sublist.count_le '\n'
  omega

/-- Every token and fault stands where it says. -/
theorem holds_of_mem_spots {a : Spot} (h : a ∈ (ofSource source).spots) :
    ∃ taken, a.span.Holds source.toList a.line taken := by
  rcases List.mem_append.mp h with h | h
  · obtain ⟨t, ht, rfl⟩ := List.mem_map.mp h
    rcases mem_items_of_mem_tokens ht with hitem | rfl
    · exact ⟨_, stands_found source.toList _ hitem⟩
    · exact ⟨_, stands_endToken source.toList⟩
  · obtain ⟨f, hf, rfl⟩ := List.mem_map.mp h
    obtain ⟨taken, hholds, -⟩ := stands_of_mem_faults hf
    exact ⟨taken, hholds⟩

theorem start_endToken (cs : List Char) : (endToken cs).span.start = byteLength cs := by
  simp [endToken, offset_start_past]

theorem start_lt_endToken {t : Token} (h : .token t ∈ found source.toList) :
    t.span.start < (endToken source.toList).span.start ∧
      t.span.stop ≤ (endToken source.toList).span.start := by
  obtain ⟨hlt, hle⟩ := start_lt_stop_le h
  rw [start_endToken]
  exact ⟨Nat.lt_of_lt_of_le hlt hle, hle⟩

theorem pairwise_tokens (source : String) : (ofSource source).tokens.Pairwise fun a b =>
    a.span.stop ≤ b.span.start ∧ a.span.start < b.span.start := by
  refine List.pairwise_append.mpr ⟨pairwise_picked ?_ source, List.pairwise_singleton _ _, ?_⟩
  · intro i t ht
    cases i with
    | token u =>
        cases ht
        rfl
    | fault f => cases ht
  · intro t ht u hu
    rw [List.mem_singleton.mp hu]
    obtain ⟨i, hi, hpicked⟩ := List.mem_filterMap.mp ht
    cases i with
    | fault f => cases hpicked
    | token v =>
        cases hpicked
        exact (start_lt_endToken (subset_items source hi)).symm

theorem pairwise_faults (source : String) : (ofSource source).faults.Pairwise fun a b =>
    a.span.stop ≤ b.span.start ∧ a.span.start < b.span.start := by
  refine pairwise_picked ?_ source
  intro i f hf
  cases i with
  | token t => cases hf
  | fault g =>
      cases hf
      rfl

/-- A token and a fault have no byte in common. -/
theorem disjoint_token_fault {t : Token} {f : ScanFault} (ht : t ∈ (ofSource source).tokens)
    (hf : f ∈ (ofSource source).faults) : t.span.Disjoint f.span := by
  have hfault := mem_items_of_mem_faults hf
  rcases mem_items_of_mem_tokens ht with htoken | rfl
  · have hordered := (pairwise_found source.toList).2
    have hdisjoint : (found source.toList).Pairwise fun i j => i.span.Disjoint j.span :=
      hordered.imp .inl
    have : Std.Symm fun i j : Item => i.span.Disjoint j.span := ⟨fun _ _ => Span.Disjoint.symm⟩
    exact hdisjoint.forall htoken hfault (by simp)
  · right
    rw [start_endToken]
    exact (start_lt_stop_le hfault).2

theorem disjoint_spots (source : String) :
    (ofSource source).spots.Pairwise fun a b => a.span.Disjoint b.span := by
  refine List.pairwise_append.mpr ⟨?_, ?_, ?_⟩
  · exact List.pairwise_map.mpr ((pairwise_tokens source).imp fun h => .inl h.1)
  · exact List.pairwise_map.mpr ((pairwise_faults source).imp fun h => .inl h.1)
  · intro a ha b hb
    obtain ⟨t, ht, rfl⟩ := List.mem_map.mp ha
    obtain ⟨f, hf, rfl⟩ := List.mem_map.mp hb
    exact disjoint_token_fault ht hf

/-- A string that is not closed takes the rest of the text, so that nothing is found behind it. -/
structure Unclosed (source : String) (s : Scan) (f : ScanFault) : Prop where
  last : s.faults.getLast? = some f
  quote : ∃ before after, source.toList = before ++ '"' :: after ∧ '"' ∉ after ∧
    f.span = ⟨byteLength before, byteLength source.toList⟩
  behind : ∀ t ∈ s.tokens, t.kind ≠ .endOfFile → t.span.start < f.span.start

theorem unclosed_of_mem_faults {f : ScanFault} (hf : f ∈ (ofSource source).faults)
    (hcause : f.cause = .unterminatedString) : Unclosed source (ofSource source) f := by
  have hexplained := explained_found (mem_items_of_mem_faults hf)
  obtain ⟨before, taken, after, htext, hspan, htakes⟩ := hexplained
  rw [hcause] at htakes
  obtain ⟨body, rfl, hbody, rfl⟩ := htakes.exists_body
  rw [List.append_nil] at htext
  have hstop : f.span.stop = byteLength source.toList := by rw [hspan, htext]
  refine ⟨?_, ⟨before, body, htext, hbody, by rw [hspan, htext]⟩, fun t ht hkind => ?_⟩
  · obtain ⟨first, others, hfaults⟩ := List.append_of_mem hf
    cases others with
    | nil => rw [hfaults, List.getLast?_append]; rfl
    | cons g others =>
        -- a fault behind this one would lie behind the end of the text
        have hg : g ∈ (ofSource source).faults := by simp [hfaults]
        have hordered := pairwise_faults source
        rw [hfaults] at hordered
        have hbehind := (List.pairwise_append.mp hordered).2.1
        have hle := ((List.pairwise_cons.mp hbehind).1 g List.mem_cons_self).1
        have hin := start_lt_stop_le (mem_items_of_mem_faults hg)
        simp only [Item.span] at hin
        omega
  · rcases mem_items_of_mem_tokens ht with htoken | rfl
    · have hin := start_lt_stop_le htoken
      simp only [Item.span] at hin
      rcases disjoint_token_fault ht hf with hle | hle <;> omega
    · exact absurd rfl hkind

/-- How tokens and faults lie in a text, and what lies between them. -/
structure Orderly (source : String) (s : Scan) : Prop where
  few : s.faults.length ≤ 20
  disjoint : s.spots.Pairwise fun a b => a.span.Disjoint b.span
  tokens : s.tokens.Pairwise fun a b => a.span.start < b.span.start
  faults : s.faults.Pairwise fun a b => a.span.start < b.span.start
  /-- Lines are told from offsets of 32 bits, so they come in order in a text of such a length. -/
  lines : byteLength source.toList < UInt32.size → ∀ a ∈ s.spots, ∀ b ∈ s.spots,
    a.span.start ≤ b.span.start → a.line ≤ b.line
  unclosed : ∀ f ∈ s.faults, f.cause = .unterminatedString → Unclosed source s f
  numbers : ∀ f ∈ s.faults, f.cause ≠ .malformedNumber
  between : s.faults.length < 20 → ∀ offset < byteLength source.toList,
    (∃ a ∈ s.spots, a.span.Touches offset) ∨
      GapAt 0 source.toList (s.spots.map Spot.span) offset

/-- What no span touches is left by all spans of tokens and faults, if nothing was left out. -/
theorem covered_spots (h : (ofSource source).faults.length < 20) {offset : Nat}
    (hoffset : offset < byteLength source.toList) :
    (∃ a ∈ (ofSource source).spots, a.span.Touches offset) ∨
      GapAt 0 source.toList ((ofSource source).spots.map Spot.span) offset := by
  have hall : untilFault maxFaults (found source.toList) = found source.toList :=
    untilFault_eq_of_lt h
  have hspot {i : Item} (hi : i ∈ found source.toList) :
      ∃ a ∈ (ofSource source).spots, a.span = i.span := by
    rw [← hall] at hi
    cases i with
    | token t =>
        have ht : t ∈ (ofSource source).tokens :=
          List.mem_append_left _ (List.mem_filterMap.mpr ⟨_, hi, rfl⟩)
        exact ⟨_, List.mem_append_left _ (List.mem_map.mpr ⟨t, ht, rfl⟩), rfl⟩
    | fault f =>
        have hf : f ∈ (ofSource source).faults := List.mem_filterMap.mpr ⟨_, hi, rfl⟩
        exact ⟨_, List.mem_append_right _ (List.mem_map.mpr ⟨f, hf, rfl⟩), rfl⟩
  have hstop : offset < 0 + byteLength source.toList := by rwa [Nat.zero_add]
  rcases covered (.start source.toList) source.toList offset (Nat.zero_le _) hstop
    with ⟨i, hi, htouches⟩ | ⟨before, gap, after, htext, hgap, hin, hspans⟩
  · obtain ⟨a, ha, hspan⟩ := hspot hi
    exact .inl ⟨a, ha, hspan ▸ htouches⟩
  · refine .inr ⟨before, gap, after, htext, hgap, hin, fun other hother => ?_⟩
    obtain ⟨a, ha, rfl⟩ := List.mem_map.mp hother
    rcases List.mem_append.mp ha with ha | ha
    · obtain ⟨t, ht, rfl⟩ := List.mem_map.mp ha
      rcases mem_items_of_mem_tokens ht with hitem | rfl
      · exact hspans _ (List.mem_map.mpr ⟨_, hitem, rfl⟩)
      · right
        rw [start_endToken, htext]
        simp
    · obtain ⟨f, hf, rfl⟩ := List.mem_map.mp ha
      exact hspans _ (List.mem_map.mpr ⟨_, mem_items_of_mem_faults hf, rfl⟩)

theorem orderly_ofSource (source : String) : Orderly source (ofSource source) where
  few := length_faults_untilFault _ _
  disjoint := disjoint_spots source
  tokens := (pairwise_tokens source).imp fun h => h.2
  faults := (pairwise_faults source).imp fun h => h.2
  lines := by
    intro hsize a ha b hb h
    obtain ⟨taken, hholds⟩ := holds_of_mem_spots ha
    obtain ⟨taken', hholds'⟩ := holds_of_mem_spots hb
    exact line_le_of_start_le hsize hholds hholds' h
  unclosed := fun f hf hcause => unclosed_of_mem_faults hf hcause
  numbers := by
    intro f hf hcause
    obtain ⟨_, _, _, -, -, htakes⟩ :=
      explained_found (mem_items_of_mem_faults hf)
    rw [hcause] at htakes
    cases htakes
  between := fun h offset hoffset => covered_spots h hoffset

/-! ### Offsets beyond 32 bits -/

theorem cut_at (cs : List Char) :
    cut '@' cs = ⟨.fault (.unexpectedCharacter '@'), ['@'], cs⟩ := rfl

/-- The second of these characters is so far behind the first that its line is told from offset
zero. -/
theorem faults_of_far {n : Nat} (hn : n + 2 = UInt32.size)
    (htext : source.toList = '\n' :: '@' :: (List.replicate n ' ' ++ ['@'])) :
    (ofSource source).faults = [⟨.unexpectedCharacter '@', 2, ⟨1, 2⟩⟩,
      ⟨.unexpectedCharacter '@', 1, ⟨UInt32.size, UInt32.size + 1⟩⟩] := by
  have hblank : '\n' ∉ '@' :: (List.replicate n ' ' ++ ['@']) := by
    simp [List.mem_replicate]
  have hnear : (LineMap.ofSource source).lineOf 1 = 2 := by
    have honline : LineMap.OnLine source.toList ['\n'] ('@' :: (List.replicate n ' ' ++ ['@'])) []
        (LineMap.clip 1) :=
      ⟨⟨by simp [htext], .inr ⟨[], rfl⟩, hblank, .inl rfl⟩, by decide, .inr rfl⟩
    rw [LineMap.lineOf, honline.indexOf_eq]
    rfl
  have hfar : (LineMap.ofSource source).lineOf UInt32.size = 1 := by
    have honline : LineMap.OnLine source.toList [] [] source.toList
        (LineMap.clip UInt32.size) :=
      ⟨⟨rfl, .inl rfl, List.not_mem_nil, .inr ⟨_, htext⟩⟩, Nat.zero_le _, .inl (Nat.le_refl 0)⟩
    rw [LineMap.lineOf, honline.indexOf_eq]
    rfl
  have hnewline : byteLength ['\n'] = 1 := by decide
  have hstray : byteLength ['@'] = 1 := by decide
  have hfound : found source.toList =
      [.fault ⟨.unexpectedCharacter '@', 2, ⟨1, 2⟩⟩,
        .fault ⟨.unexpectedCharacter '@', 1, ⟨UInt32.size, UInt32.size + 1⟩⟩] := by
    unfold found
    generalize hp : Place.start source.toList = p
    rw [htext, items_of_isBlank p (by decide), items_cons, cut_at, items_replicate, items_cons,
      cut_at, items_nil, ← hp]
    have hsum : 1 + 1 + n = UInt32.size := by omega
    simp only [Cut.item?, ← Place.past_append, line_start_past, offset_start_past,
      byteLength_append, byteLength_replicate, hnewline, hstray, hsum]
    rw [← LineMap.ofSource, hnear, hfar]
    rfl
  unfold ofSource
  rw [hfound]
  rfl

/-- Where offsets no longer fit 32 bits, a later fault can be said to be in an earlier line. -/
theorem lines_not_in_order :
    let source := String.ofList ('\n' :: '@' :: (List.replicate (UInt32.size - 2) ' ' ++ ['@']))
    (ofSource source).faults = [⟨.unexpectedCharacter '@', 2, ⟨1, 2⟩⟩,
        ⟨.unexpectedCharacter '@', 1, ⟨UInt32.size, UInt32.size + 1⟩⟩] ∧
      ¬ ∀ a ∈ (ofSource source).spots, ∀ b ∈ (ofSource source).spots,
        a.span.start ≤ b.span.start → a.line ≤ b.line := by
  intro source
  have hfaults : (ofSource source).faults = _ :=
    faults_of_far (Nat.sub_add_cancel (by decide)) String.toList_ofList
  refine ⟨hfaults, fun hordered => ?_⟩
  have hspot {f : ScanFault} (hf : f ∈ (ofSource source).faults) :
      ⟨f.span, f.line⟩ ∈ (ofSource source).spots :=
    List.mem_append_right _ (List.mem_map.mpr ⟨f, hf, rfl⟩)
  have hle := hordered _ (hspot (hfaults ▸ List.mem_cons_self)) _
    (hspot (hfaults ▸ List.mem_cons_of_mem _ List.mem_cons_self)) (by decide)
  exact absurd hle (by decide)

end

end Scan

end LamScope
