import LamScope.Proofs.Token.Tokenization

/-!
# Tokens behind blanks

A token is found as it is in any text that goes on behind it with the same characters up to the next
blank, since no other lexeme than a string holds a blank, and a string ends at its quote. Main
statement: the lexemes of a text with one space between any two are scanned to the same tokens.
-/
namespace LamScope

open Text

namespace Lexeme
variable {lexeme rest cs : List Char} {kind : TokenKind}

/-- Blanks stand in strings only. -/
theorem blankless_or_string (h : Lexeme lexeme kind) :
    (∀ c ∈ lexeme, Scan.isBlank c = false) ∨
      ∃ contents, '"' ∉ contents ∧ lexeme = '"' :: contents ++ ['"'] := by
  have hdigits {ds : List Char} (hds : Digits ds) : ∀ d ∈ ds, Scan.isBlank d = false :=
    fun d hd => Scan.isBlank_eq_false (by decide) (hds.2 d hd)
  cases h with
  | keyword k =>
      have hall : k.text.toList.all (fun c => !Scan.isBlank c) = true := by cases k <;> rfl
      left
      simpa using hall
  | name hc hcs =>
      left
      intro d hd
      rcases List.mem_cons.mp hd with rfl | hd
      · exact Scan.isBlank_eq_false (by decide) hc
      · exact Scan.isBlank_eq_false (by decide) (hcs d hd)
  | symbol s =>
      have hall : s.text.toList.all (fun c => !Scan.isBlank c) = true := by cases s <;> rfl
      left
      simpa using hall
  | whole hds => exact .inl (hdigits hds)
  | decimal hds hes =>
      left
      intro d hd
      rcases List.mem_append.mp hd with hd | hd
      · exact hdigits hds d hd
      rcases List.mem_cons.mp hd with rfl | hd
      · decide
      · exact hdigits hes d hd
  | @string contents hcontents => exact .inr ⟨contents, hcontents, rfl⟩

/-- What begins with a quote is a string. -/
theorem exists_contents (h : Lexeme ('"' :: cs) kind) :
    ∃ contents, '"' ∉ contents ∧ cs = contents ++ ['"'] := by
  generalize hlexeme : '"' :: cs = lexeme at h
  cases h with
  | keyword k => cases k <;> simp [Keyword.text] at hlexeme
  | name hc =>
      cases hlexeme
      cases hc
  | symbol s => cases s <;> simp [Symbol.text] at hlexeme
  | whole hds => cases hds.2 '"' (hlexeme ▸ List.mem_cons_self)
  | decimal hds =>
      obtain ⟨d, ds, rfl⟩ := List.exists_cons_of_ne_nil hds.1
      cases hlexeme
      cases hds.2 '"' List.mem_cons_self
  | string hcontents =>
      cases hlexeme
      exact ⟨_, hcontents, rfl⟩

/-- No string goes on behind a lexeme. -/
theorem append_ne_string (h : Lexeme lexeme kind) (hrest : rest ≠ []) {contents : List Char}
    (hcontents : '"' ∉ contents) : lexeme ++ rest ≠ '"' :: contents ++ ['"'] := by
  intro htext
  obtain ⟨c, cs, rfl, -⟩ := h.exists_cons
  simp only [List.cons_append, List.cons.injEq] at htext
  obtain ⟨rfl, htail⟩ := htext
  obtain ⟨contents', -, rfl⟩ := h.exists_contents
  rw [List.append_assoc, List.singleton_append] at htail
  have hsame := (List.append_cons_inj_of_notMem hcontents (List.not_mem_nil)).mp htail.symm
  exact hrest hsame.2.2.symm

end Lexeme

namespace Munch
variable {lexeme rest rest' : List Char} {kind : TokenKind}

/-- What stands behind a token counts up to its first blank only. -/
theorem congr_rest (h : Munch lexeme rest kind)
    (hrest : ∀ run, run <+: rest' → (∀ c ∈ run, Scan.isBlank c = false) → run <+: rest) :
    Munch lexeme rest' kind where
  written := h.written
  longest other kind' hother hprefix := by
    by_contra hlonger
    obtain ⟨run, rfl⟩ : lexeme <+: other :=
      List.prefix_of_prefix_length_le (List.prefix_append _ _) hprefix (by omega)
    rcases hother.blankless_or_string with hblankless | ⟨contents, hcontents, hstring⟩
    · have hrun := hrest run ((List.prefix_append_right_inj lexeme).mp hprefix) fun c hc =>
        hblankless c (List.mem_append_right lexeme hc)
      exact hlonger (h.longest _ _ hother ((List.prefix_append_right_inj lexeme).mpr hrun))
    · have hne : run ≠ [] := by
        rintro rfl
        exact hlonger (by simp)
      exact h.written.append_ne_string hne hcontents hstring
  no_comment := by
    obtain ⟨c, cs, rfl, -⟩ := h.written.exists_cons
    rintro hcomment
    cases cs with
    | nil =>
        obtain ⟨rfl, hslash⟩ := List.cons_prefix_cons.mp hcomment
        have hrun := hrest ['/'] hslash (List.forall_mem_singleton.mpr rfl)
        exact h.no_comment (List.cons_prefix_cons.mpr ⟨rfl, hrun⟩)
    | cons d ds =>
        refine h.no_comment ?_
        simpa using hcomment

/-- Before a blank or the end any token is found that is found somewhere. -/
theorem alone (h : Munch lexeme rest kind) (hrest : Stops (fun c => !Scan.isBlank c) rest') :
    Munch lexeme rest' kind := by
  refine h.congr_rest fun run hrun hblankless => ?_
  cases run with
  | nil => exact List.nil_prefix
  | cons c run =>
      obtain ⟨tail, rfl⟩ := hrun
      have hblank : (!Scan.isBlank c) = false := hrest c rfl
      rw [hblankless c List.mem_cons_self] at hblank
      cases hblank

end Munch

/-- What a token is, wherever it stands. -/
def Token.content (t : Token) : TokenKind × String := (t.kind, t.text)

/-- A lexeme with its kind. -/
abbrev Spelling := List Char × TokenKind

namespace Spelling

def content (w : Spelling) : TokenKind × String := (w.2, String.ofList w.1)

/-- The lexemes, each with a space before it. -/
def spaced (words : List Spelling) : List Char := words.flatMap fun w => ' ' :: w.1

theorem stops_spaced {tail : List Char} (htail : Stops (fun c => !Scan.isBlank c) tail) :
    ∀ words : List Spelling, Stops (fun c => !Scan.isBlank c) (spaced words ++ tail)
  | [] => htail
  | _ :: _ => stops_cons (by decide) _

theorem intercalate_eq (w : Spelling) (words : List Spelling) :
    [' '].intercalate ((w :: words).map Prod.fst) = w.1 ++ spaced words := by
  induction words generalizing w with
  | nil => simp [spaced]
  | cons v words ih =>
      rw [List.map_cons, List.map_cons, List.intercalate_cons_cons, ← List.map_cons, ih]
      simp [spaced]

end Spelling

namespace Tokenized
variable {line : List Char → Nat} {before text : List Char} {ts : List Token}

/-- All tokens but the last can stand alone. -/
theorem exists_spellings (h : Tokenized line before text ts) :
    ∃ words : List Spelling, (∀ w ∈ words, Munch w.1 [] w.2) ∧
      ts.map Token.content = words.map Spelling.content ++ [(.endOfFile, "")] := by
  induction h with
  | stop => exact ⟨[], List.forall_mem_nil _, rfl⟩
  | @token before gap lexeme rest kind us hgap hmunch _ ih =>
      obtain ⟨words, hwords, hcontent⟩ := ih
      refine ⟨(lexeme, kind) :: words,
        List.forall_mem_cons.mpr ⟨hmunch.alone stops_nil, hwords⟩, ?_⟩
      rw [List.map_cons, hcontent]
      rfl

/-- Tokens that can stand alone are found with a space before each, whatever blanks come last. -/
theorem exists_spaced {words : List Spelling} (hwords : ∀ w ∈ words, Munch w.1 [] w.2)
    {tail : List Char} (hgap : Gap tail []) (htail : Stops (fun c => !Scan.isBlank c) tail)
    (line : List Char → Nat) (before : List Char) :
    ∃ ts, Tokenized line before (Spelling.spaced words ++ tail) ts ∧
      ts.map Token.content = words.map Spelling.content ++ [(.endOfFile, "")] := by
  induction words generalizing before with
  | nil => exact ⟨_, stop hgap, rfl⟩
  | cons w words ih =>
      obtain ⟨hw, hwords⟩ := List.forall_mem_cons.mp hwords
      obtain ⟨ts, hts, hcontent⟩ := ih hwords (before ++ [' '] ++ w.1)
      have hmunch := hw.alone (Spelling.stops_spaced htail words)
      have hall := token (.blank (by decide) (.nil _)) hmunch hts
      refine ⟨_, by simpa [Spelling.spaced] using hall, ?_⟩
      rw [List.map_cons, hcontent]
      rfl

/-- The same with a space only between any two, and perhaps one more behind the last. -/
theorem exists_intercalate {words : List Spelling} (hwords : ∀ w ∈ words, Munch w.1 [] w.2)
    {last : List Spelling} (hlast : last = [] ∨ last = [([], .endOfFile)])
    (line : List Char → Nat) :
    ∃ ts, Tokenized line [] ([' '].intercalate ((words ++ last).map Prod.fst)) ts ∧
      ts.map Token.content = words.map Spelling.content ++ [(.endOfFile, "")] := by
  have hgap : Gap (Spelling.spaced last) [] := by
    rcases hlast with rfl | rfl
    · exact .nil []
    · exact .blank (by decide) (.nil [])
  have htail : Stops (fun c => !Scan.isBlank c) (Spelling.spaced last) := by
    have hstops := Spelling.stops_spaced stops_nil last
    rwa [List.append_nil] at hstops
  cases words with
  | nil =>
      have hnil : [' '].intercalate (([] ++ last).map Prod.fst) = [] := by
        rcases hlast with rfl | rfl <;> rfl
      rw [hnil]
      exact ⟨_, stop (.nil []), rfl⟩
  | cons w words =>
      obtain ⟨hw, hwords⟩ := List.forall_mem_cons.mp hwords
      have hjoin : [' '].intercalate ((w :: words ++ last).map Prod.fst) =
          w.1 ++ (Spelling.spaced words ++ Spelling.spaced last) := by
        rw [List.cons_append, Spelling.intercalate_eq]
        simp [Spelling.spaced]
      obtain ⟨ts, hts, hcontent⟩ := exists_spaced hwords hgap htail line ([] ++ [] ++ w.1)
      have hall := token (.nil _) (hw.alone (Spelling.stops_spaced htail words)) hts
      rw [hjoin]
      refine ⟨_, hall, ?_⟩
      rw [List.map_cons, hcontent]
      rfl

end Tokenized

namespace Scan
variable {source : String}

/-- The lexemes of a faultless text with one space between any two, with the empty one of its end or
without, are scanned without a fault to tokens of the same kinds and lexemes. -/
theorem content_intercalate (h : (ofSource source).faults = []) {lexemes : List String}
    (hlexemes : lexemes = (ofSource source).tokens.map (·.text) ∨
      lexemes = (ofSource source).tokens.dropLast.map (·.text)) :
    (ofSource (String.intercalate " " lexemes)).faults = [] ∧
      (ofSource (String.intercalate " " lexemes)).tokens.map Token.content =
        (ofSource source).tokens.map Token.content := by
  obtain ⟨words, hwords, hcontent⟩ := (tokenized_iff.mpr ⟨h, rfl⟩).exists_spellings
  have htexts : (ofSource source).tokens.map (·.text) =
      words.map (fun w => String.ofList w.1) ++ [""] := by
    have htexts := congrArg (List.map Prod.snd) hcontent
    simpa [Token.content, Spelling.content, Function.comp_def] using htexts
  obtain ⟨last, hlast, hlist⟩ : ∃ last : List Spelling,
      (last = [] ∨ last = [([], .endOfFile)]) ∧
        lexemes = (words ++ last).map fun w => String.ofList w.1 := by
    rcases hlexemes with rfl | rfl
    · exact ⟨_, .inr rfl, by simpa using htexts⟩
    · refine ⟨[], .inl rfl, ?_⟩
      rw [List.map_dropLast, htexts]
      simp
  have htext : (String.intercalate " " lexemes).toList =
      [' '].intercalate ((words ++ last).map Prod.fst) := by
    rw [String.toList_intercalate, hlist, List.map_map]
    congr 1
    simp [Function.comp_def]
  obtain ⟨ts, hts, hsame⟩ := Tokenized.exists_intercalate hwords hlast
    (lineBehind (String.intercalate " " lexemes).toList)
  rw [← htext] at hts
  obtain ⟨hfaults, htokens⟩ := tokenized_iff.mp hts
  exact ⟨hfaults, by rw [htokens, hsame, hcontent]⟩

/-- A comment between two slashes, a point behind digits, a keyword in front of a name, and a
string of two lines with slashes in it. -/
theorem content_intercalate_dense :
    let source := "a//b\n/1.or_/\"//\nb\"!=="
    let lexemes := (ofSource source).tokens.map (·.text)
    (ofSource source).faults = [] ∧
      lexemes = ["a", "/", "1", ".", "or_", "/", "\"//\nb\"", "!=", "=", ""] ∧
      (ofSource (String.intercalate " " lexemes)).tokens.map Token.content =
        (ofSource source).tokens.map Token.content :=
  ⟨by decide +kernel, by decide +kernel, (content_intercalate (by decide +kernel) (.inl rfl)).2⟩

end Scan

end LamScope
