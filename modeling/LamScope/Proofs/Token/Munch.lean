import LamScope.Proofs.Token.Grammar
import LamScope.Proofs.Token.Places
import Mathlib.Data.List.TakeWhile

/-!
# The first token of a text

A cut looks at the first character of a text, and at one more where that does not decide. Main
statement: what it takes for a token is the longest lexeme that the text begins with, and where it
finds a fault there is none.
-/
namespace LamScope

open Text

namespace Double

theorem ofDecimal?_whole {ds : List Char} (h : Digits ds) :
    ofDecimal? ds = some (ofRatio (digitsValue ds) 1) := by
  have htake := takeWhile_run h.2 stops_nil
  have hdrop := dropWhile_run h.2 stops_nil
  rw [List.append_nil] at htake hdrop
  unfold ofDecimal?
  dsimp only
  rw [htake, hdrop, if_neg (by simpa using h.1)]

theorem ofDecimal?_decimal {ds es : List Char} (hds : Digits ds) (hes : Digits es) :
    ofDecimal? (ds ++ '.' :: es) =
      some (ofRatio (digitsValue (ds ++ es)) (Nat.pow 10 es.length)) := by
  have hpoint : Stops Char.isDigit ('.' :: es) := stops_cons (by decide) es
  have hall : (!es.isEmpty && es.all Char.isDigit) = true := by
    simpa [Digits] using hes
  unfold ofDecimal?
  dsimp only
  rw [takeWhile_run hds.2 hpoint, dropWhile_run hds.2 hpoint, if_neg (by simpa using hds.1)]
  exact if_pos hall

end Double

namespace Keyword

/-- Keywords are words. -/
theorem text_eq_cons (k : Keyword) : ∃ c cs, k.text.toList = c :: cs ∧
    Scan.isNameStart c = true ∧ ∀ d ∈ cs, Scan.isNamePart d = true := by
  cases k <;> exact ⟨_, _, rfl, by decide, List.all_eq_true.mp (by decide)⟩

theorem ofText?_text (k : Keyword) : ofText? k.text = some k := by
  cases k <;> decide

theorem eq_text_of_ofText? {s : String} {k : Keyword} (h : ofText? s = some k) : s = k.text := by
  have hfound := List.find?_some h
  exact (beq_iff_eq.mp hfound).symm

end Keyword

namespace Scan

/-- A character that no word, number or string begins with, and no gap of blanks. -/
structure Other (c : Char) : Prop where
  blank : isBlank c = false
  name : isNameStart c = false
  digit : c.isDigit = false
  quote : c ≠ '"'

end Scan

namespace Symbol

theorem text_of_single? {c : Char} {s : Symbol} (h : single? c = some s) :
    s.text.toList = [c] := by
  unfold single? at h
  split at h <;> cases h <;> rfl

theorem text_of_withEqual? {c : Char} {s : Symbol} (h : withEqual? c = some s) :
    s.text.toList = [c, '='] := by
  unfold withEqual? at h
  split at h <;> cases h <;> rfl

/-- A symbol is one character, or that character followed by an equals sign. -/
theorem text_eq (s : Symbol) : ∃ c, Scan.Other c ∧
    ((s.text.toList = [c] ∧ single? c = some s) ∨
      (s.text.toList = [c, '='] ∧ withEqual? c = some s ∧ c ≠ '/')) := by
  cases s with
  | bangEqual | equalEqual | lessEqual | greaterEqual =>
      exact ⟨_, ⟨by decide, by decide, by decide, by decide⟩, .inr ⟨rfl, rfl, by decide⟩⟩
  | _ => exact ⟨_, ⟨by decide, by decide, by decide, by decide⟩, .inl ⟨rfl, rfl⟩⟩

end Symbol

namespace Scan
variable {c : Char} {cs ds es body contents rest lexeme : List Char} {kind : TokenKind}

theorem wordKind_keyword (k : Keyword) : wordKind k.text.toList = .keyword k := by
  rw [wordKind, String.ofList_toList, k.ofText?_text]

theorem wordKind_name (h : ∀ k : Keyword, k.text ≠ String.ofList cs) : wordKind cs = .name := by
  have hnone : Keyword.ofText? (String.ofList cs) = none :=
    List.find?_eq_none.mpr fun k _ => by simpa using h k
  rw [wordKind, hnone]

/-! ### Cuts by their first character -/

theorem isNameStart_of_isDigit (hc : c.isDigit = true) : isNameStart c = false := by
  have hdigit := (Char.isDigit_iff_toNat.mp hc).2
  rw [← Bool.not_eq_true, isNameStart, Bool.or_eq_true, beq_iff_eq]
  rintro (hletter | rfl)
  · rcases (Bool.or_eq_true _ _).mp hletter with hupper | hlower
    · have hle : 'A'.toNat ≤ c.toNat := (of_decide_eq_true hupper).1
      exact absurd (Nat.le_trans hle hdigit) (by decide)
    · have hle : 'a'.toNat ≤ c.toNat :=
        of_decide_eq_true ((Bool.and_eq_true _ _).mp hlower).1
      exact absurd (Nat.le_trans hle hdigit) (by decide)
  · cases hc

theorem cut_word (hc : isNameStart c = true) (cs : List Char) :
    cut c cs = ⟨.token (wordKind (c :: cs.takeWhile isNamePart)), c :: cs.takeWhile isNamePart,
      cs.dropWhile isNamePart⟩ := by
  have hblank : isBlank c = false := isBlank_eq_false (by decide) hc
  simp [cut, hblank, hc]

theorem cut_digit (hc : c.isDigit = true) (cs : List Char) :
    cut c cs = ⟨numberPiece (c :: (cutNumber cs).1), c :: (cutNumber cs).1, (cutNumber cs).2⟩ := by
  have hblank : isBlank c = false := isBlank_eq_false (by decide) hc
  simp [cut, hblank, hc, isNameStart_of_isDigit hc]

theorem cut_quote (cs : List Char) :
    cut '"' cs =
      match cs.dropWhile (· != '"') with
      | quote :: rest => ⟨.token (.string (String.ofList (cs.takeWhile (· != '"')))),
          '"' :: cs.takeWhile (· != '"') ++ [quote], rest⟩
      | [] => ⟨.fault .unterminatedString, '"' :: cs, []⟩ := rfl

theorem cut_string (h : '"' ∉ contents) (rest : List Char) :
    cut '"' (contents ++ '"' :: rest) = ⟨.token (.string (String.ofList contents)),
      '"' :: contents ++ ['"'], rest⟩ := by
  have hstops : Stops (· != '"') ('"' :: rest) := stops_cons (by decide) rest
  rw [cut_quote, takeWhile_run (forall_bne h) hstops, dropWhile_run (forall_bne h) hstops]

theorem cut_open (h : '"' ∉ cs) :
    cut '"' cs = ⟨.fault .unterminatedString, '"' :: cs, []⟩ := by
  have hdrop := dropWhile_run (forall_bne h) stops_nil
  rw [List.append_nil] at hdrop
  rw [cut_quote, hdrop]

theorem cut_comment (hbody : '\n' ∉ body) (hend : Stops (· != '\n') rest) :
    cut '/' ('/' :: (body ++ rest)) = ⟨.gap, '/' :: '/' :: body, rest⟩ := by
  have hline : '\n' ∉ '/' :: body := by simpa using hbody
  have htake := takeWhile_run (forall_bne hline) hend
  have hdrop := dropWhile_run (forall_bne hline) hend
  change Cut.mk .gap ('/' :: ('/' :: body ++ rest).takeWhile (· != '\n'))
    (('/' :: body ++ rest).dropWhile (· != '\n')) = _
  rw [htake, hdrop]

theorem cut_other (hc : Other c) : ¬ (c = '/' ∧ cs.head? = some '/') →
    cut c cs =
      match Symbol.withEqual? c, cs with
      | some s, '=' :: rest => ⟨.token (.symbol s), [c, '='], rest⟩
      | _, _ =>
          match Symbol.single? c with
          | some s => ⟨.token (.symbol s), [c], cs⟩
          | none => ⟨.fault (.unexpectedCharacter c), [c], cs⟩ := by
  intro hcomment
  unfold cut
  rw [hc.blank, hc.name, hc.digit, if_neg hc.quote, if_neg hcomment]
  rfl

/-- A number stops behind its digits, or behind those of the fraction. -/
theorem cutNumber_cases (cs : List Char) :
    cutNumber cs = (cs.takeWhile Char.isDigit, cs.dropWhile Char.isDigit) ∨
      ∃ es rest, Digits es ∧ cutNumber cs = (cs.takeWhile Char.isDigit ++ '.' :: es, rest) := by
  unfold cutNumber
  dsimp only
  split
  · rename_i after hafter
    split
    · exact .inl rfl
    · rename_i hfraction
      exact .inr ⟨_, _, ⟨by simpa using hfraction, fun d hd => List.mem_takeWhile_imp hd⟩, rfl⟩
  · exact .inl rfl

theorem cutNumber_decimal (hds : ∀ d ∈ ds, d.isDigit = true) (hes : Digits es)
    (rest : List Char) :
    (cutNumber (ds ++ '.' :: (es ++ rest))).1 = ds ++ '.' :: (es ++ rest.takeWhile Char.isDigit)
    := by
  have hpoint : Stops Char.isDigit ('.' :: (es ++ rest)) := stops_cons (by decide) _
  have htake : (es ++ rest).takeWhile Char.isDigit = es ++ rest.takeWhile Char.isDigit :=
    List.takeWhile_append_of_pos hes.2
  unfold cutNumber
  dsimp only
  rw [takeWhile_run hds hpoint, dropWhile_run hds hpoint]
  simp [htake, hes.1]

theorem isPrefix_cutNumber (hds : ∀ d ∈ ds, d.isDigit = true) (hcs : ds <+: cs) :
    ds <+: (cutNumber cs).1 := by
  have hrun := isPrefix_takeWhile hds hcs
  rcases cutNumber_cases cs with hcut | ⟨es, rest, -, hcut⟩
  · rw [hcut]
    exact hrun
  · rw [hcut]
    exact hrun.trans (List.prefix_append _ _)

/-! ### What is cut off -/

theorem numberPiece_whole (h : Digits ds) :
    numberPiece ds = .token (.number (.ofRatio (Double.digitsValue ds) 1)) := by
  rw [numberPiece, Double.ofDecimal?_whole h]

theorem numberPiece_decimal (hds : Digits ds) (hes : Digits es) :
    numberPiece (ds ++ '.' :: es) =
      .token (.number (.ofRatio (Double.digitsValue (ds ++ es)) (Nat.pow 10 es.length))) := by
  rw [numberPiece, Double.ofDecimal?_decimal hds hes]

theorem lexeme_word (hc : isNameStart c = true) (hcs : ∀ d ∈ cs, isNamePart d = true) :
    Lexeme (c :: cs) (wordKind (c :: cs)) := by
  unfold wordKind
  split
  · rename_i k hk
    have htext := congrArg String.toList (Keyword.eq_text_of_ofText? hk)
    rw [String.toList_ofList] at htext
    rw [htext]
    exact .keyword k
  · rename_i hnone
    refine .name hc hcs fun k hk => ?_
    rw [← hk, k.ofText?_text] at hnone
    cases hnone

/-- Digits always make a number. -/
theorem lexeme_number (hc : c.isDigit = true) (cs : List Char) :
    ∃ kind, numberPiece (c :: (cutNumber cs).1) = .token kind ∧
      Lexeme (c :: (cutNumber cs).1) kind := by
  have hwhole : Digits (c :: cs.takeWhile Char.isDigit) := by
    refine ⟨List.cons_ne_nil _ _, fun d hd => ?_⟩
    rcases List.mem_cons.mp hd with rfl | hd
    · exact hc
    · exact List.mem_takeWhile_imp hd
  rcases cutNumber_cases cs with hcut | ⟨es, rest, hes, hcut⟩
  · rw [hcut]
    exact ⟨_, numberPiece_whole hwhole, .whole hwhole⟩
  · rw [hcut]
    exact ⟨_, numberPiece_decimal hwhole hes, .decimal hwhole hes⟩

theorem lexeme_symbol {s : Symbol} (h : s.text.toList = cs) : Lexeme cs (.symbol s) :=
  h ▸ .symbol s

/-- What a text begins with where no blank stands. -/
inductive Front (c : Char) (cs : List Char) : Prop
  | token (kind : TokenKind) (hpiece : (cut c cs).piece = .token kind)
      (h : Lexeme (cut c cs).taken kind)
  | comment (body rest : List Char) (hbody : '\n' ∉ body) (hend : Stops (· != '\n') rest)
      (htext : c :: cs = '/' :: '/' :: (body ++ rest))
  | fault (cause : ScanFault.Cause) (hpiece : (cut c cs).piece = .fault cause)

theorem front_other (hc : Other c) (hcomment : ¬ (c = '/' ∧ cs.head? = some '/')) :
    Front c cs := by
  have hcut := cut_other hc hcomment
  split at hcut
  · rename_i s rest hs
    exact .token (.symbol s) (by rw [hcut]) (by
      rw [hcut]
      exact lexeme_symbol (Symbol.text_of_withEqual? hs))
  · split at hcut
    · rename_i s hs
      exact .token (.symbol s) (by rw [hcut]) (by
        rw [hcut]
        exact lexeme_symbol (Symbol.text_of_single? hs))
    · exact .fault _ (by rw [hcut])

theorem front (hblank : isBlank c = false) (cs : List Char) : Front c cs := by
  by_cases hname : isNameStart c = true
  · refine .token _ (by rw [cut_word hname]) ?_
    rw [cut_word hname]
    exact lexeme_word hname fun d hd => List.mem_takeWhile_imp hd
  by_cases hdigit : c.isDigit = true
  · obtain ⟨kind, hpiece, hlexeme⟩ := lexeme_number hdigit cs
    exact .token kind (by rw [cut_digit hdigit, hpiece]) (by rwa [cut_digit hdigit])
  by_cases hquote : c = '"'
  · subst hquote
    by_cases hclosed : '"' ∈ cs
    · obtain ⟨contents, rest, rfl, hcontents⟩ := List.eq_append_cons_of_mem hclosed
      exact .token _ (by rw [cut_string hcontents]) (by
        rw [cut_string hcontents]
        exact .string hcontents)
    · exact .fault .unterminatedString (by rw [cut_open hclosed])
  by_cases hcomment : c = '/' ∧ cs.head? = some '/'
  · obtain ⟨rfl, hnext⟩ := hcomment
    obtain ⟨cs, rfl⟩ := List.head?_eq_some_iff.mp hnext
    refine .comment (cs.takeWhile (· != '\n')) (cs.dropWhile (· != '\n')) ?_
      (stops_dropWhile _ cs) (by rw [List.takeWhile_append_dropWhile])
    intro hnewline
    simpa using List.mem_takeWhile_imp hnewline
  · rw [Bool.not_eq_true] at hname hdigit
    exact front_other ⟨hblank, hname, hdigit, hquote⟩ hcomment

/-! ### No lexeme is missed -/

/-- A cut that takes a lexeme or more, and gives the lexeme its kind if it takes no more. -/
def Covers (k : Cut) (lexeme : List Char) (kind : TokenKind) : Prop :=
  ∃ kind', k.piece = .token kind' ∧ lexeme.length ≤ k.taken.length ∧
    (k.taken = lexeme → kind' = kind)

theorem covers_word (hc : isNameStart c = true) (hds : ∀ d ∈ ds, isNamePart d = true)
    (hcs : ds <+: cs) (hkind : wordKind (c :: ds) = kind) : Covers (cut c cs) (c :: ds) kind := by
  rw [cut_word hc]
  refine ⟨_, rfl, Nat.succ_le_succ (isPrefix_takeWhile hds hcs).length_le, fun h => ?_⟩
  rw [← hkind, ← h]

theorem covers_number (hc : c.isDigit = true) (hlength : ds.length ≤ (cutNumber cs).1.length)
    (hkind : numberPiece (c :: ds) = .token kind) : Covers (cut c cs) (c :: ds) kind := by
  obtain ⟨kind', hpiece, -⟩ := lexeme_number hc cs
  rw [cut_digit hc]
  refine ⟨kind', hpiece, Nat.succ_le_succ hlength, fun h => ?_⟩
  dsimp only at h
  rw [h, hkind] at hpiece
  exact (Piece.token.inj hpiece).symm

theorem covers_single {s : Symbol} (hc : Other c) (hcomment : ¬ (c = '/' ∧ cs.head? = some '/'))
    (hs : Symbol.single? c = some s) : Covers (cut c cs) [c] (.symbol s) := by
  have hcut := cut_other hc hcomment
  split at hcut
  · rw [hcut]
    exact ⟨_, rfl, by simp, by simp⟩
  · rw [hs] at hcut
    rw [hcut]
    exact ⟨_, rfl, by simp, fun _ => rfl⟩

theorem covers_withEqual {s : Symbol} (hc : Other c) (hslash : c ≠ '/')
    (hs : Symbol.withEqual? c = some s) : Covers (cut c ('=' :: cs)) [c, '='] (.symbol s) := by
  have hcomment : ¬ (c = '/' ∧ ('=' :: cs).head? = some '/') := fun h => hslash h.1
  have hcut := cut_other hc hcomment
  rw [hs] at hcut
  rw [hcut]
  exact ⟨_, rfl, by simp, fun _ => rfl⟩

theorem covers_of_lexeme (h : Lexeme lexeme kind) (htext : lexeme ++ rest = c :: cs)
    (hcomment : ¬ ['/', '/'] <+: c :: cs) : Covers (cut c cs) lexeme kind := by
  cases h with
  | keyword k =>
      obtain ⟨d, ds, hk, hd, hds⟩ := k.text_eq_cons
      have hkind := wordKind_keyword k
      rw [hk] at htext hkind ⊢
      cases htext
      exact covers_word hd hds (List.prefix_append _ _) hkind
  | name hd hds hname =>
      cases htext
      exact covers_word hd hds (List.prefix_append _ _) (wordKind_name hname)
  | symbol s =>
      obtain ⟨d, hd, ⟨hs, hsymbol⟩ | ⟨hs, hsymbol, hslash⟩⟩ := s.text_eq
      · rw [hs] at htext ⊢
        cases htext
        refine covers_single hd ?_ hsymbol
        rintro ⟨rfl, hnext⟩
        obtain ⟨tail, rfl⟩ := List.head?_eq_some_iff.mp hnext
        exact hcomment (List.prefix_append ['/', '/'] tail)
      · rw [hs] at htext ⊢
        cases htext
        exact covers_withEqual hd hslash hsymbol
  | whole hds =>
      obtain ⟨d, ds, rfl⟩ := List.exists_cons_of_ne_nil hds.1
      cases htext
      have htail : ∀ e ∈ ds, e.isDigit = true := fun e he => hds.2 e (List.mem_cons_of_mem _ he)
      refine covers_number (hds.2 _ List.mem_cons_self) ?_ (numberPiece_whole hds)
      exact (isPrefix_cutNumber htail (List.prefix_append ds rest)).length_le
  | @decimal ds es hds hes =>
      obtain ⟨d, ds, rfl⟩ := List.exists_cons_of_ne_nil hds.1
      rw [List.append_assoc] at htext
      cases htext
      have htail : ∀ e ∈ ds, e.isDigit = true := fun e he => hds.2 e (List.mem_cons_of_mem _ he)
      refine covers_number (hds.2 _ List.mem_cons_self) ?_ (numberPiece_decimal hds hes)
      change (ds ++ '.' :: es).length ≤ (cutNumber (ds ++ '.' :: (es ++ rest))).1.length
      rw [cutNumber_decimal htail hes]
      simp
  | @string contents hcontents =>
      have hcs : '"' :: (contents ++ '"' :: rest) = c :: cs := by simpa using htext
      cases hcs
      rw [cut_string hcontents]
      exact ⟨_, rfl, le_rfl, fun _ => rfl⟩

/-! ### The longest lexeme -/

theorem not_comment (h : (cut c cs).piece ≠ .gap) : ¬ ['/', '/'] <+: c :: cs := by
  rintro ⟨text, htext⟩
  cases htext
  have hbody : '\n' ∉ text.takeWhile (· != '\n') := fun hmem => by
    simpa using List.mem_takeWhile_imp hmem
  have hcut := cut_comment hbody (stops_dropWhile (· != '\n') text)
  rw [List.takeWhile_append_dropWhile] at hcut
  exact h (congrArg Cut.piece hcut)

theorem munch_cut (h : (cut c cs).piece = .token kind) :
    Munch (cut c cs).taken (cut c cs).rest kind := by
  have hcomment : ¬ ['/', '/'] <+: c :: cs := not_comment (by simp [h])
  have hblank : isBlank c = false := by
    rw [← Bool.not_eq_true]
    intro hblank
    rw [cut_of_isBlank hblank] at h
    cases h
  refine ⟨?_, fun other kind' hother hprefix => ?_, by rwa [cut_append]⟩
  · rcases front hblank cs with ⟨kind', hpiece, hlexeme⟩ | ⟨body, rest, -, -, htext⟩ |
      ⟨cause, hpiece⟩
    · rw [h] at hpiece
      obtain rfl := Piece.token.inj hpiece
      exact hlexeme
    · exact absurd (htext ▸ List.prefix_append ['/', '/'] _) hcomment
    · rw [h] at hpiece
      cases hpiece
  · rw [cut_append] at hprefix
    obtain ⟨rest, htext⟩ := hprefix
    obtain ⟨-, -, hlength, -⟩ := covers_of_lexeme hother htext hcomment
    exact hlength

/-- There is one longest lexeme, and the cut finds it. -/
theorem cut_munch (h : Munch lexeme rest kind) (htext : lexeme ++ rest = c :: cs) :
    cut c cs = ⟨.token kind, lexeme, rest⟩ := by
  have hcomment := h.no_comment
  rw [htext] at hcomment
  obtain ⟨kind', hpiece, hlength, hkind⟩ := covers_of_lexeme h.written htext hcomment
  have hall : (cut c cs).taken ++ (cut c cs).rest = lexeme ++ rest := by rw [cut_append, htext]
  have hle := h.longest _ _ (munch_cut hpiece).written (hall ▸ List.prefix_append _ _)
  obtain ⟨htaken, hrest⟩ := List.append_inj hall (Nat.le_antisymm hle hlength)
  obtain rfl := hkind htaken
  rw [← htaken, ← hrest, ← hpiece]

end Scan

end LamScope
