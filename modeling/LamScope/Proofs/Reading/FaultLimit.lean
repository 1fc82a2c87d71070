import LamScope.Proofs.Reading.Takes

/-!
# How many faults are noted

A sequence of statements looks at the number of faults only after it has noted one of its own. Then
`maxSyntaxFaults` faults end it, and no more than that. Remarks are noted without looking, and what
encloses a sequence goes on behind its closing brace. Main statement: apart from remarks, there are
at most `maxSyntaxFaults` faults and one more for every opening brace. None of these can be left out
of the bound.
-/
namespace LamScope

namespace SyntaxFault

/-- The faults among some that are no remarks. -/
def failures (faults : List SyntaxFault) : Nat := faults.countP fun f => !f.cause.isRemark

def remarks (faults : List SyntaxFault) : Nat := faults.countP fun f => f.cause.isRemark

theorem length_eq_failures_add_remarks (faults : List SyntaxFault) :
    faults.length = failures faults + remarks faults := by
  rw [failures, remarks, List.length_eq_countP_add_countP fun f => !f.cause.isRemark]
  simp

end SyntaxFault

namespace Token

def openingBraces (ts : List Token) : Nat := ts.countP fun t => t.kind == .symbol .leftBrace

theorem openingBraces_le_of_suffix {ts us : List Token} (h : ts <:+ us) :
    openingBraces ts ≤ openingBraces us := h.sublist.countP_le

end Token

namespace Cursor

def failures (c : Cursor) : Nat := SyntaxFault.failures c.faults

def openingBraces (c : Cursor) : Nat := Token.openingBraces c.upcoming

/-- Each opening brace taken allows one failure more, once `maxSyntaxFaults - 1` are noted. -/
structure Spends (c d : Cursor) : Prop where
  finish : d.finish = c.finish
  braces : d.openingBraces ≤ c.openingBraces
  failures : c.Closed →
    d.failures + d.openingBraces ≤ max c.failures (maxSyntaxFaults - 1) + c.openingBraces

/-- As in a sequence, the last of whose failures no brace pays for. -/
structure Overspends (c d : Cursor) : Prop where
  finish : d.finish = c.finish
  braces : d.openingBraces ≤ c.openingBraces
  failures : c.Closed →
    d.failures + d.openingBraces ≤ max c.failures (maxSyntaxFaults - 1) + 1 + c.openingBraces

variable {c d e : Cursor}

theorem failures_note (c : Cursor) (f : SyntaxFault) :
    (c.note f).failures = c.failures + if f.cause.isRemark then 0 else 1 := by
  unfold failures SyntaxFault.failures note
  rw [List.countP_append, List.countP_singleton]
  cases f.cause.isRemark <;> rfl

theorem failures_le_length (c : Cursor) : c.failures ≤ c.faults.length := List.countP_le_length

theorem openingBraces_note (c : Cursor) (f : SyntaxFault) :
    (c.note f).openingBraces = c.openingBraces := rfl

theorem Spends.trans (h : c.Spends d) (h' : d.Spends e) : c.Spends e where
  finish := h'.finish.trans h.finish
  braces := Nat.le_trans h'.braces h.braces
  failures hc := by
    have hd := h.failures hc
    have he := h'.failures (hc.of_finish_eq h.finish)
    have hbraces := h.braces
    omega

theorem Spends.then (h : c.Spends d) (h' : d.Overspends e) : c.Overspends e where
  finish := h'.finish.trans h.finish
  braces := Nat.le_trans h'.braces h.braces
  failures hc := by
    have hd := h.failures hc
    have he := h'.failures (hc.of_finish_eq h.finish)
    have hbraces := h.braces
    omega

theorem spends_of_leads (h : c.Leads d) (hf : d.failures = c.failures) : c.Spends d := by
  have hbraces : d.openingBraces ≤ c.openingBraces :=
    Token.openingBraces_le_of_suffix h.upcoming
  exact ⟨h.finish, hbraces, fun _ => by omega⟩

theorem Spends.overspends (h : c.Spends d) : c.Overspends d :=
  ⟨h.finish, h.braces, fun hc => Nat.le_trans (h.failures hc) (by omega)⟩

theorem Spends.note (h : c.Spends d) (f : SyntaxFault) : c.Overspends (d.note f) where
  finish := h.finish
  braces := h.braces
  failures hc := by
    have hd := h.failures hc
    rw [openingBraces_note, failures_note]
    split <;> omega

/-- As long as the faults are few, a failure needs no brace. -/
theorem Spends.note_few (h : c.Spends d) {f : SyntaxFault}
    (hfew : (d.note f).faults.length < maxSyntaxFaults) : c.Spends (d.note f) where
  finish := h.finish
  braces := h.braces
  failures _ := by
    have hle := (d.note f).failures_le_length
    have hbraces := h.braces
    rw [openingBraces_note]
    omega

theorem failures_resume (x : Extent) (c : Cursor) : (c.resume x).failures = c.failures := by
  unfold failures resume
  split
  · rfl
  · split <;> rfl

theorem failures_advance (c : Cursor) : c.advance.failures = c.failures := by
  unfold failures advance
  split <;> rfl

theorem overspends_sequenceWithin {x : Extent} {item : Parser Stmt}
    (hitem : ∀ c : Cursor, c.Spends (item c).next) (bound : List Token) (c : Cursor) :
    c.Overspends (Parser.sequenceWithin x item bound c).2 := by
  induction bound generalizing c with
  | nil => exact (spends_of_leads (.refl c) rfl).overspends
  | cons _ bound ih =>
      have hc := hitem c
      unfold Parser.sequenceWithin
      split
      · exact (spends_of_leads (.refl c) rfl).overspends
      split
      · rename_i h
        rw [h] at hc
        exact hc.then (ih _)
      · rename_i fault d h
        rw [h] at hc
        dsimp only
        split
        · exact hc.note fault
        · rename_i hfew
          have hresumed := spends_of_leads ((d.note fault).leads_resume x)
            (failures_resume x (d.note fault))
          exact ((hc.note_few (Nat.lt_of_not_le hfew)).trans hresumed).then (ih _)

/-- The opening brace pays for the last failure of a sequence in braces. -/
theorem spends_sequence {item : Parser Stmt} (hitem : ∀ c : Cursor, c.Spends (item c).next)
    (h : c.isAt .leftBrace) : c.Spends (Parser.sequence .braces item c.advance).2 := by
  have hbody := overspends_sequenceWithin (x := .braces) hitem c.advance.upcoming c.advance
  have hfinish : c.advance.finish = c.finish := c.leads_advance.finish
  refine ⟨hbody.finish.trans hfinish,
    Nat.le_trans hbody.braces (Token.openingBraces_le_of_suffix c.leads_advance.upcoming),
    fun hc => ?_⟩
  have hfailures := hbody.failures (hc.of_finish_eq hfinish)
  have hkind := c.kind_of_isAt h
  have hbraces : c.openingBraces = c.advance.openingBraces + 1 := by
    have hu := c.upcoming_eq_cons hc (by simp [hkind])
    unfold openingBraces Token.openingBraces
    rw [hu, List.countP_cons_of_pos (by simp [hkind])]
  rw [failures_advance] at hfailures
  have hsame : (Parser.sequence .braces item c.advance).2 =
    (Parser.sequenceWithin .braces item c.advance.upcoming c.advance).2 := rfl
  rw [hsame]
  omega

instance : Motion Spends where
  refl c := spends_of_leads (.refl c) rfl
  trans := .trans
  advance c := spends_of_leads c.leads_advance c.failures_advance
  draw _ := spends_of_leads ⟨List.suffix_rfl, rfl, List.prefix_rfl⟩ rfl
  remark c _ w h := spends_of_leads (c.leads_note _) (by
    rw [failures_note]
    simp [SyntaxFault.of, h])
  sequence := spends_sequence

end Cursor

namespace Program

/-- Apart from remarks there are at most `maxSyntaxFaults` faults, and one more for each brace. -/
theorem length_faults_ofTokens_le (tokens : List Token) :
    (ofTokens tokens).faults.length ≤ maxSyntaxFaults +
      SyntaxFault.remarks (ofTokens tokens).faults + Token.openingBraces tokens := by
  have hitem (c : Cursor) : c.Spends (Parser.declaration .outermost c).next := Parser.Keeps.keeps c
  have hspent := Cursor.overspends_sequenceWithin (x := .file) hitem
    (Cursor.ofTokens tokens).upcoming (.ofTokens tokens)
  have hfailures := hspent.failures (Cursor.closed_ofTokens tokens)
  have hstart : (Cursor.ofTokens tokens).failures = 0 := rfl
  have hbraces : (Cursor.ofTokens tokens).openingBraces ≤ Token.openingBraces tokens :=
    (List.takeWhile_prefix _).sublist.countP_le
  rw [SyntaxFault.length_eq_failures_add_remarks]
  have hfaults : SyntaxFault.failures (ofTokens tokens).faults = Cursor.failures
    (Parser.sequenceWithin .file (Parser.declaration .outermost) (Cursor.ofTokens tokens).upcoming
      (.ofTokens tokens)).2 := rfl
  have hpos : 0 < maxSyntaxFaults := by decide
  omega

/-- Remarks exceed the limit, and so do failures that stand just before closing braces. -/
theorem faults_exceed_limit :
    (ofSource (String.join (List.replicate 25 "1=2;"))).faults.length = 25 ∧
      (ofSource (String.join (List.replicate 25 "{print}"))).faults.length = 25 ∧
      ¬ ∀ tokens : List Token, (ofTokens tokens).faults.length ≤ maxSyntaxFaults := by
  have hremarks : (ofSource (String.join (List.replicate 25 "1=2;"))).faults.length = 25 := by
    decide +kernel
  refine ⟨hremarks, by decide +kernel, fun h => ?_⟩
  have hle := h (Scan.ofSource (String.join (List.replicate 25 "1=2;"))).tokens
  exact Nat.not_lt_of_le (Nat.le_trans (Nat.le_of_eq hremarks.symm) hle) (by decide)

end Program

end LamScope
