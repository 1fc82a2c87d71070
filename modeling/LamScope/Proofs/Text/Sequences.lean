import LamScope.Proofs.Text.Runs
import LamScope.Text.Styled

/-!
# Control sequences

A control sequence is an escape character with a bracket, digits and semicolons, and an `m`. Styles
are switched on and off by such sequences. Main statement: if there is no escape character in the
plain text, then that is what remains of the text in colours without its control sequences.
-/
namespace LamScope.Styled

open Text

/-- What stands for styles in a control sequence. -/
def isParameter (c : Char) : Bool := c.isDigit || c == ';'

/-- The text after the control sequence that it begins with. -/
def afterSequence? : List Char → Option (List Char)
  | '\x1b' :: '[' :: cs =>
      match cs.dropWhile isParameter with
      | 'm' :: rest => some rest
      | _ => none
  | _ => none

theorem length_afterSequence? {cs rest : List Char} (h : afterSequence? cs = some rest) :
    rest.length < cs.length := by
  unfold afterSequence? at h
  split at h
  · rename_i cs
    split at h
    · rename_i rest' hdrop
      have hlength := (List.dropWhile_suffix isParameter (l := cs)).length_le
      rw [hdrop, List.length_cons] at hlength
      rw [← Option.some.inj h, List.length_cons, List.length_cons]
      omega
    · cases h
  · cases h

/-- The text with its control sequences taken out, from left to right. -/
def withoutSequences : List Char → List Char
  | [] => []
  | c :: cs =>
      match _h : afterSequence? (c :: cs) with
      | some rest => withoutSequences rest
      | none => c :: withoutSequences cs
termination_by cs => cs.length
decreasing_by
  · exact length_afterSequence? _h
  · exact Nat.lt_succ_self _

variable {cs : List Char} {c : Char}

theorem withoutSequences_of_some {rest : List Char} (h : afterSequence? cs = some rest) :
    withoutSequences cs = withoutSequences rest := by
  cases cs with
  | nil => cases h
  | cons c cs =>
      rw [withoutSequences]
      split
      · rename_i h'
        rw [h] at h'
        rw [Option.some.inj h']
      · rename_i h'
        rw [h] at h'
        cases h'

theorem withoutSequences_cons (hc : c ≠ '\x1b') (cs : List Char) :
    withoutSequences (c :: cs) = c :: withoutSequences cs := by
  have hnone : afterSequence? (c :: cs) = none := by
    unfold afterSequence?
    split
    · rename_i heq
      exact (hc (List.cons.inj heq).1).elim
    · rfl
  rw [withoutSequences]
  split
  · rename_i h
    rw [hnone] at h
    cases h
  · rfl

/-- Text without escape characters is kept. -/
theorem withoutSequences_append (h : '\x1b' ∉ cs) (rest : List Char) :
    withoutSequences (cs ++ rest) = cs ++ withoutSequences rest := by
  induction cs with
  | nil => rfl
  | cons c cs ih =>
      obtain ⟨hc, hcs⟩ := not_or.mp (mt List.mem_cons.mpr h)
      rw [List.cons_append, withoutSequences_cons (Ne.symm hc), ih hcs, List.cons_append]

/-- The text is one control sequence. -/
def IsSequence (cs : List Char) : Prop :=
  ∃ parameters, (∀ c ∈ parameters, isParameter c = true) ∧
    cs = '\x1b' :: '[' :: parameters ++ ['m']

theorem IsSequence.withoutSequences_append (h : IsSequence cs) (rest : List Char) :
    withoutSequences (cs ++ rest) = withoutSequences rest := by
  obtain ⟨parameters, hparameters, rfl⟩ := h
  have hstops : Stops isParameter ('m' :: rest) := stops_cons (by decide) rest
  have hdrop := dropWhile_run hparameters hstops
  apply withoutSequences_of_some
  simp only [List.cons_append, List.append_assoc, List.nil_append, afterSequence?, hdrop]

/-- What has no `m` is no control sequence. -/
example : withoutSequences ['a', '\x1b', '[', '1', ';', '3', '1', 'm', 'b', '\x1b', '[', '0'] =
    ['a', 'b', '\x1b', '[', '0'] := by
  cbv

theorem isSequence_reset : IsSequence reset :=
  ⟨['0'], List.forall_mem_singleton.mpr (by decide), rfl⟩

theorem isSequence_opening (style : Style) : IsSequence style.opening := by
  refine ⟨_, List.all_eq_true.mp ?_, rfl⟩
  obtain ⟨weight, color⟩ := style
  rcases weight with _ | _ | _ <;> rcases color with _ | _ | _ | _ | _ | _ <;> decide

/-- Where no style is switched off, none has to be switched on again. -/
theorem reopened_eq_self {opening : List Char} (h : '\x1b' ∉ cs) : reopened opening cs = cs := by
  induction cs with
  | nil => rfl
  | cons c cs ih =>
      obtain ⟨hc, hcs⟩ := not_or.mp (mt List.mem_cons.mpr h)
      rw [reopened, ih hcs]
      intro rest heq
      exact (hc heq.symm).elim

theorem withoutSequences_chunk {chunk : Chunk} (h : '\x1b' ∉ chunk.plain) (rest : List Char) :
    withoutSequences (chunk.ansi ++ rest) = chunk.plain ++ withoutSequences rest := by
  unfold Chunk.plain at *
  unfold Chunk.ansi
  split
  · exact withoutSequences_append h rest
  · rename_i style _
    rw [reopened_eq_self h, List.append_assoc, List.append_assoc,
      (isSequence_opening style).withoutSequences_append, withoutSequences_append h,
      isSequence_reset.withoutSequences_append]

theorem withoutSequences_ansi {t : Styled} (h : '\x1b' ∉ t.plain) :
    withoutSequences t.ansi = t.plain := by
  induction t with
  | nil => simp [ansi, plain, withoutSequences]
  | cons chunk t ih =>
      have hsplit : plain (chunk :: t) = chunk.plain ++ plain t := List.flatMap_cons
      rw [hsplit, List.mem_append, not_or] at h
      obtain ⟨hchunk, ht⟩ := h
      show withoutSequences (chunk.ansi ++ ansi t) = _
      rw [withoutSequences_chunk hchunk, ih ht, hsplit]

/-- Without its control sequences the text in colours is the plain text. -/
theorem withoutSequences_render {t : Styled} (h : '\x1b' ∉ (render false t).toList) :
    withoutSequences (render true t).toList = (render false t).toList := by
  have hplain : (render false t).toList = t.plain := String.toList_ofList
  have hansi : (render true t).toList = t.ansi := String.toList_ofList
  rw [hplain] at h ⊢
  rw [hansi, withoutSequences_ansi h]

end LamScope.Styled
