import LamScope.Proofs.Text.Lines
import LamScope.Proofs.Token.Appended

/-!
# Places of tokens

Everything that a scan finds stands where it says in the text, tokens and faults stand one after the
other, and no token is empty.
-/
namespace LamScope

open Text

/-- The characters stand in a text where the span says, and the line is that of their offset. -/
def Span.Holds (cs : List Char) (line : Nat) (span : Span) (taken : List Char) : Prop :=
  ∃ before after, cs = before ++ taken ++ after ∧
    line = (LineMap.ofText cs).lineOf (byteLength before) ∧
    span = ⟨byteLength before, byteLength (before ++ taken)⟩

def Word.Stands (cs : List Char) (w : Word) : Prop := w.span.Holds cs w.line w.text.toList

/-- A string that is not closed begins with a quote. -/
def ScanFault.Stands (cs : List Char) (f : ScanFault) : Prop :=
  ∃ taken, f.span.Holds cs f.line taken ∧
    (f.cause = .unterminatedString → taken.head? = some '"')

/-- Tokens that stand one after the other, none of them empty. -/
structure Token.Ordered (ts : List Token) : Prop where
  nonempty : ∀ t ∈ ts, t.span.start < t.span.stop
  apart : ts.Pairwise fun a b => a.span.stop ≤ b.span.start

namespace Scan

def Item.Stands (cs : List Char) : Item → Prop
  | .token t => t.toWord.Stands cs
  | .fault f => f.Stands cs

def Item.span : Item → Span
  | .token t => t.span
  | .fault f => f.span

theorem head?_taken (c : Char) (cs : List Char) : (cut c cs).taken.head? = some c := by
  unfold cut
  repeat' split
  all_goals rfl

theorem eq_quote_of_unterminated {c : Char} {cs : List Char}
    (h : (cut c cs).piece = .fault .unterminatedString) : c = '"' := by
  unfold cut at h
  split at h
  · cases h
  split at h
  · cases h
  split at h
  · unfold numberPiece at h
    dsimp only at h
    split at h <;> cases h
  split at h
  · assumption
  split at h
  · cases h
  split at h
  · cases h
  · split at h <;> cases h

theorem holds_start_past {cs before taken rest : List Char} (h : cs = before ++ (taken ++ rest)) :
    Span.Holds cs ((Place.start cs).past before).line
      ⟨((Place.start cs).past before).offset,
        (((Place.start cs).past before).past taken).offset⟩ taken := by
  refine ⟨before, rest, by rw [h, List.append_assoc], line_start_past cs before, ?_⟩
  rw [← Place.past_append, offset_start_past, offset_start_past]

theorem stands_of_item?_eq_some {text before : List Char} {c : Char} {cs : List Char} {i : Item}
    (htext : text = before ++ c :: cs)
    (h : (cut c cs).item? ((Place.start text).past before) = some i) : i.Stands text := by
  rw [← cut_append c cs] at htext
  have hholds := holds_start_past htext
  unfold Cut.item? at h
  cases hk : (cut c cs).piece with
  | gap => simp [hk] at h
  | token kind =>
      simp only [hk, Option.some.injEq] at h
      rw [← h]
      simpa [Item.Stands, Word.Stands] using hholds
  | fault cause =>
      simp only [hk, Option.some.injEq] at h
      rw [← h]
      refine ⟨(cut c cs).taken, hholds, fun hcause => ?_⟩
      have hc : c = '"' := eq_quote_of_unterminated (hk.trans (congrArg _ hcause))
      exact (head?_taken c cs).trans (congrArg some hc)

/-- Whatever is found stands at its place. -/
theorem stands_items {text : List Char} (p : Place) (cs : List Char) :
    ∀ before, p = (Place.start text).past before → text = before ++ cs →
      ∀ i ∈ items p cs, i.Stands text := by
  fun_induction items p cs with
  | case1 p =>
      intro before _ _ i hi
      cases hi
  | case2 p c cs k ih =>
      rintro before rfl htext i hi
      rcases List.mem_append.mp hi with hi | hi
      · exact stands_of_item?_eq_some htext (Option.mem_toList.mp hi)
      · refine ih (before ++ k.taken) (Place.past_append _ _ _).symm ?_ i hi
        rw [List.append_assoc, cut_append, htext]

theorem stands_found (cs : List Char) : ∀ i ∈ found cs, i.Stands cs :=
  stands_items (.start cs) cs [] rfl rfl

/-- Nothing found is empty unless it is a fault, and all stand one after the other. -/
theorem pairwise_items (p : Place) (cs : List Char) :
    (∀ i ∈ items p cs, p.offset ≤ i.span.start ∧ i.span.start < i.span.stop) ∧
      (items p cs).Pairwise fun i j => i.span.stop ≤ j.span.start := by
  fun_induction items p cs with
  | case1 p => exact ⟨List.forall_mem_nil _, .nil⟩
  | case2 p c cs k ih =>
      obtain ⟨hplaces, hordered⟩ := ih
      have hpos : p.offset < (p.past k.taken).offset := by
        obtain ⟨d, ds, hd⟩ := List.exists_cons_of_ne_nil (cut_taken_ne_nil c cs)
        have hsize := d.utf8Size_pos
        simp only [Place.past, k, hd, byteLength_cons]
        omega
      have hfirst : ∀ i ∈ (k.item? p).toList, i.span = ⟨p.offset, (p.past k.taken).offset⟩ := by
        intro i hi
        rw [Option.mem_toList, Cut.item?] at hi
        split at hi <;> cases hi <;> rfl
      refine ⟨fun i hi => ?_, List.pairwise_append.mpr ⟨?_, hordered, fun i hi j hj => ?_⟩⟩
      · rcases List.mem_append.mp hi with hi | hi
        · rw [hfirst i hi]
          exact ⟨Nat.le_refl _, hpos⟩
        · exact ⟨Nat.le_trans (Nat.le_of_lt hpos) (hplaces i hi).1, (hplaces i hi).2⟩
      · cases k.item? p with
        | none => exact .nil
        | some i => exact List.pairwise_singleton _ i
      · rw [hfirst i hi]
        exact (hplaces j hj).1

theorem pairwise_found (cs : List Char) : (∀ i ∈ found cs, i.span.start < i.span.stop) ∧
    (found cs).Pairwise fun i j => i.span.stop ≤ j.span.start :=
  ⟨fun i hi => ((pairwise_items (.start cs) cs).1 i hi).2, (pairwise_items (.start cs) cs).2⟩

theorem isPrefix_untilFault (n : Nat) (is : List Item) : untilFault n is <+: is := by
  induction is generalizing n with
  | nil => cases n <;> exact List.prefix_rfl
  | cons i is ih =>
      cases n with
      | zero => exact List.nil_prefix
      | succ n => cases i <;> exact List.prefix_cons_inj _ |>.mpr (ih _)

theorem stands_endToken (cs : List Char) : (endToken cs).toWord.Stands cs := by
  refine ⟨cs, [], ?_, line_start_past cs cs, ?_⟩
  · simp [endToken]
  · simp [endToken, offset_start_past]

theorem stands_of_mem_faults {source : String} {f : ScanFault} (h : f ∈ (ofSource source).faults) :
    f.Stands source.toList := by
  obtain ⟨i, hi, hf⟩ := List.mem_filterMap.mp h
  have hmem := (isPrefix_untilFault maxFaults (found source.toList)).subset hi
  have hstands := stands_found source.toList i hmem
  cases i with
  | token t => cases hf
  | fault g =>
      cases hf
      exact hstands

/-- The tokens of a text before the one that marks its end. -/
theorem exists_tokens (source : String) :
    ∃ ts, (ofSource source).tokens = ts ++ [endToken source.toList] ∧ Token.Ordered ts ∧
      ∀ t ∈ ts, t.kind ≠ .endOfFile ∧ t.toWord.Stands source.toList := by
  have hfirst := isPrefix_untilFault maxFaults (found source.toList)
  have hitem {t : Token} (ht : t ∈ (untilFault maxFaults (found source.toList)).filterMap
      Item.token?) : .token t ∈ found source.toList := by
    obtain ⟨i, hi, ht⟩ := List.mem_filterMap.mp ht
    cases i with
    | token u =>
        cases ht
        exact hfirst.subset hi
    | fault f => cases ht
  obtain ⟨hplaces, hordered⟩ := pairwise_found source.toList
  refine ⟨_, rfl, ⟨fun t ht => hplaces _ (hitem ht), ?_⟩, fun t ht =>
    ⟨kind_of_mem_items (hitem ht), stands_found source.toList _ (hitem ht)⟩⟩
  refine List.pairwise_filterMap.mpr ((hordered.sublist hfirst.sublist).imp ?_)
  intro i j hij t ht u hu
  cases i with
  | fault f => cases ht
  | token t' =>
      cases j with
      | fault f => cases hu
      | token u' =>
          cases ht
          cases hu
          exact hij

end Scan

end LamScope
