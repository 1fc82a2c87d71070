import LamScope.Proofs.Text.Runs
import LamScope.Token.Scan

/-!
# The grammar of tokens

Which texts are tokens, and of which kind, is said here without a scan. A source text is made of
gaps and tokens in turn, where every token is the longest one that can stand at its place. Main
statement: whatever gap a text begins with can be put off, and behind it the first token begins.
-/
namespace LamScope

open Text

/-- One decimal digit or more. -/
def Digits (ds : List Char) : Prop := ds ≠ [] ∧ ∀ d ∈ ds, d.isDigit = true

/-- How tokens are written. A word is a keyword or else a name, always as a whole, and the quotes do
not belong to the contents of a string. -/
inductive Lexeme : List Char → TokenKind → Prop
  | keyword (k : Keyword) : Lexeme k.text.toList (.keyword k)
  | name {c : Char} {cs : List Char} (hc : Scan.isNameStart c = true)
      (hcs : ∀ d ∈ cs, Scan.isNamePart d = true)
      (h : ∀ k : Keyword, k.text ≠ String.ofList (c :: cs)) : Lexeme (c :: cs) .name
  | symbol (s : Symbol) : Lexeme s.text.toList (.symbol s)
  | whole {ds : List Char} (h : Digits ds) :
      Lexeme ds (.number (.ofRatio (Double.digitsValue ds) 1))
  | decimal {ds es : List Char} (hds : Digits ds) (hes : Digits es) :
      Lexeme (ds ++ '.' :: es)
        (.number (.ofRatio (Double.digitsValue (ds ++ es)) (Nat.pow 10 es.length)))
  | string {contents : List Char} (h : '"' ∉ contents) :
      Lexeme ('"' :: contents ++ ['"']) (.string (String.ofList contents))

/-- Blanks and comments in front of the rest of a text. A comment goes on to the end of its line. -/
inductive Gap : List Char → List Char → Prop
  | nil (rest : List Char) : Gap [] rest
  | blank {c : Char} {gap rest : List Char} (hc : Scan.isBlank c = true) (h : Gap gap rest) :
      Gap (c :: gap) rest
  | comment {body gap rest : List Char} (hbody : '\n' ∉ body)
      (hend : Stops (· != '\n') (gap ++ rest)) (h : Gap gap rest) :
      Gap ('/' :: '/' :: (body ++ gap)) rest

/-- The longest lexeme that the text can begin with, where it does not begin with a comment. -/
structure Munch (lexeme rest : List Char) (kind : TokenKind) : Prop where
  written : Lexeme lexeme kind
  longest : ∀ other kind, Lexeme other kind → other <+: lexeme ++ rest →
    other.length ≤ lexeme.length
  no_comment : ¬ ['/', '/'] <+: lexeme ++ rest

/-- The line of what stands behind some text. -/
def Text.lineBehind (before : List Char) : Nat := 1 + before.count '\n'

/-- A token with what stands before it in the text, which tells its line. -/
def Token.behind (line : List Char → Nat) (before lexeme : List Char) (kind : TokenKind) : Token :=
  ⟨⟨String.ofList lexeme, line before, ⟨byteLength before, byteLength (before ++ lexeme)⟩⟩, kind⟩

/-- The tokens of a text that stands behind another one: a gap and a token in turn, then a gap and
the end of the file. -/
inductive Tokenized (line : List Char → Nat) : List Char → List Char → List Token → Prop
  | stop {before gap : List Char} (hgap : Gap gap []) :
      Tokenized line before gap [.behind line (before ++ gap) [] .endOfFile]
  | token {before gap lexeme rest : List Char} {kind : TokenKind} {ts : List Token}
      (hgap : Gap gap (lexeme ++ rest)) (hmunch : Munch lexeme rest kind)
      (h : Tokenized line (before ++ gap ++ lexeme) rest ts) :
      Tokenized line before (gap ++ (lexeme ++ rest))
        (.behind line (before ++ gap) lexeme kind :: ts)

/-- No gap begins here. -/
structure Gapless (text : List Char) : Prop where
  blank : Stops Scan.isBlank text
  comment : ¬ ['/', '/'] <+: text

theorem gapless_nil : Gapless [] := ⟨stops_nil, by simp⟩

namespace Gap
variable {c : Char} {gap gap' rest cs body : List Char}

theorem append (h : Gap gap (gap' ++ rest)) (h' : Gap gap' rest) : Gap (gap ++ gap') rest := by
  generalize hall : gap' ++ rest = all at h
  induction h with
  | nil => exact h'
  | blank hc _ ih => exact blank hc (ih hall)
  | @comment body gap _ hbody hend _ ih =>
      subst hall
      rw [List.cons_append, List.cons_append, List.append_assoc]
      exact comment hbody (by rwa [List.append_assoc]) (ih rfl)

theorem eq_nil (h : Gap gap rest) (hgapless : Gapless (gap ++ rest)) : gap = [] := by
  cases h with
  | nil => rfl
  | @blank c gap _ hc _ => simp [hgapless.blank c rfl] at hc
  | comment => exact absurd (by simp) hgapless.comment

/-- A blank at the front of the text belongs to the gap. -/
theorem of_blank (h : Gap gap rest) (hrest : Gapless rest) (hc : Scan.isBlank c = true)
    (htext : c :: cs = gap ++ rest) : ∃ gap', gap = c :: gap' ∧ Gap gap' rest := by
  cases h with
  | nil =>
      have := hrest.blank c (by rw [← List.nil_append rest, ← htext]; rfl)
      simp [hc] at this
  | blank _ h =>
      cases htext
      exact ⟨_, rfl, h⟩
  | comment =>
      cases htext
      exact absurd hc (by decide)

/-- A comment at the front of the text belongs to the gap. -/
theorem of_comment (h : Gap gap rest) (hrest : Gapless rest) (hbody : '\n' ∉ body)
    (hend : Stops (· != '\n') cs) (htext : '/' :: '/' :: (body ++ cs) = gap ++ rest) :
    ∃ gap', gap = '/' :: '/' :: (body ++ gap') ∧ Gap gap' rest := by
  cases h with
  | nil => exact absurd (by rw [← List.nil_append rest, ← htext]; simp) hrest.comment
  | blank hc =>
      have hslash := (List.cons.inj htext).1
      exact absurd hc (by rw [← hslash]; decide)
  | @comment body' gap' _ hbody' hend' h =>
      -- both comments are what stands before the next newline
      simp only [List.cons_append, List.cons.injEq, true_and, List.append_assoc] at htext
      have htake := takeWhile_run (forall_bne hbody) hend
      rw [htext, takeWhile_run (forall_bne hbody') hend'] at htake
      exact ⟨gap', by rw [htake], h⟩

end Gap

/-- A class of characters that no blank belongs to. -/
theorem Scan.isBlank_eq_false {p : Char → Bool}
    (hp : [' ', '\t', '\r', '\n', '\x0c'].any p = false) {c : Char} (hc : p c = true) :
    isBlank c = false := by
  rw [← Bool.not_eq_true]
  intro hblank
  simp only [isBlank, Bool.or_eq_true, beq_iff_eq] at hblank
  exact List.any_eq_false.mp hp c (by simpa [or_assoc] using hblank) hc

namespace Lexeme

/-- Tokens have text, and it does not begin with a blank. -/
theorem exists_cons {lexeme : List Char} {kind : TokenKind} (h : Lexeme lexeme kind) :
    ∃ c cs, lexeme = c :: cs ∧ Scan.isBlank c = false := by
  have hdigits {ds : List Char} (hds : Digits ds) :
      ∃ c cs, ds = c :: cs ∧ Scan.isBlank c = false := by
    obtain ⟨c, cs, rfl⟩ := List.exists_cons_of_ne_nil hds.1
    exact ⟨c, cs, rfl, Scan.isBlank_eq_false (by decide) (hds.2 c List.mem_cons_self)⟩
  cases h with
  | keyword k => cases k <;> exact ⟨_, _, rfl, by decide⟩
  | name hc => exact ⟨_, _, rfl, Scan.isBlank_eq_false (by decide) hc⟩
  | symbol s => cases s <;> exact ⟨_, _, rfl, by decide⟩
  | whole hds => exact hdigits hds
  | decimal hds =>
      obtain ⟨c, cs, rfl, hc⟩ := hdigits hds
      exact ⟨c, _, rfl, hc⟩
  | string => exact ⟨_, _, rfl, by decide⟩

end Lexeme

theorem Munch.gapless {lexeme rest : List Char} {kind : TokenKind} (h : Munch lexeme rest kind) :
    Gapless (lexeme ++ rest) := by
  obtain ⟨c, cs, rfl, hc⟩ := h.written.exists_cons
  exact ⟨stops_cons hc _, h.no_comment⟩

namespace Tokenized
variable {line : List Char → Nat} {before text piece : List Char} {ts : List Token}

/-- The gap in front can be taken for a part of the text before, and back. -/
theorem exists_gap (h : Tokenized line before text ts) : ∃ gap rest, text = gap ++ rest ∧
    Gap gap rest ∧ Gapless rest ∧ ∀ before' gap', Gap gap' rest → before' ++ gap' = before ++ gap →
      Tokenized line before' (gap' ++ rest) ts := by
  cases h with
  | stop hgap =>
      refine ⟨text, [], (List.append_nil _).symm, hgap, gapless_nil, fun before' gap' h hall => ?_⟩
      rw [← hall, List.append_nil]
      exact stop h
  | token hgap hmunch h =>
      refine ⟨_, _, rfl, hgap, hmunch.gapless, fun before' gap' h' hall => ?_⟩
      rw [← hall] at h ⊢
      exact token h' hmunch h

theorem gap_append (hpiece : Gap piece text) (h : Tokenized line (before ++ piece) text ts) :
    Tokenized line before (piece ++ text) ts := by
  obtain ⟨gap, rest, rfl, hgap, -, hmove⟩ := h.exists_gap
  rw [← List.append_assoc]
  exact hmove before (piece ++ gap) (hpiece.append hgap) (List.append_assoc _ _ _).symm

theorem of_blank {c : Char} (h : Tokenized line before (c :: text) ts)
    (hc : Scan.isBlank c = true) : Tokenized line (before ++ [c]) text ts := by
  obtain ⟨gap, rest, htext, hgap, hrest, hmove⟩ := h.exists_gap
  obtain ⟨gap', rfl, hgap'⟩ := hgap.of_blank hrest hc htext
  rw [(List.cons.inj htext).2]
  exact hmove _ gap' hgap' (by simp)

theorem of_comment {body : List Char} (h : Tokenized line before ('/' :: '/' :: (body ++ text)) ts)
    (hbody : '\n' ∉ body) (hend : Stops (· != '\n') text) :
    Tokenized line (before ++ '/' :: '/' :: body) text ts := by
  obtain ⟨gap, rest, htext, hgap, hrest, hmove⟩ := h.exists_gap
  obtain ⟨gap', rfl, hgap'⟩ := hgap.of_comment hrest hbody hend htext
  have htail : text = gap' ++ rest := by simpa using htext
  rw [htail]
  exact hmove _ gap' hgap' (by simp)

/-- Where no gap begins the first token begins, unless this is the end. -/
theorem of_gapless (h : Tokenized line before text ts) (hgapless : Gapless text) :
    (text = [] ∧ ts = [.behind line before [] .endOfFile]) ∨
      ∃ lexeme rest kind us, text = lexeme ++ rest ∧ Munch lexeme rest kind ∧
        ts = .behind line before lexeme kind :: us ∧ Tokenized line (before ++ lexeme) rest us := by
  cases h with
  | stop hgap =>
      obtain rfl := hgap.eq_nil (by rwa [List.append_nil])
      exact .inl ⟨rfl, by rw [List.append_nil]⟩
  | @token _ gap lexeme rest kind us hgap hmunch h =>
      obtain rfl := hgap.eq_nil hgapless
      rw [List.append_nil] at h ⊢
      exact .inr ⟨lexeme, rest, kind, us, rfl, hmunch, rfl, h⟩

/-- Lines count as far as the text goes. -/
theorem congr_line {line' : List Char → Nat} (h : Tokenized line before text ts)
    (hline : ∀ front, front <+: before ++ text → line front = line' front) :
    Tokenized line' before text ts := by
  induction h with
  | @stop before gap hgap =>
      have hlast : Token.behind line (before ++ gap) [] .endOfFile =
          .behind line' (before ++ gap) [] .endOfFile := by
        rw [Token.behind, hline _ List.prefix_rfl, Token.behind]
      rw [hlast]
      exact stop hgap
  | @token before gap lexeme rest kind us hgap hmunch _ ih =>
      have hfirst : Token.behind line (before ++ gap) lexeme kind =
          .behind line' (before ++ gap) lexeme kind := by
        rw [Token.behind, hline _ ⟨lexeme ++ rest, by simp⟩, Token.behind]
      rw [hfirst]
      exact token hgap hmunch (ih fun front hfront => hline front (by simpa using hfront))

end Tokenized

end LamScope
