import LamScope.Proofs.Token.Munch

/-!
# The tokens of a text

A scan finds gaps and longest lexemes where the grammar of tokens allows them, and a fault where it
allows neither. Main statement: a text without a fault can be taken apart into gaps and longest
lexemes in one way, and the tokens of its scan say which.
-/
namespace LamScope

open Text

/-- The line in which a scan places what stands behind the front of a text. -/
def Scan.lineBehind (text before : List Char) : Nat := ((Place.start text).past before).line

theorem Scan.behind_nil (text : List Char) :
    Token.behind (lineBehind text) text [] .endOfFile = endToken text := by
  simp [Token.behind, endToken, lineBehind, offset_start_past]

/-- A piece found behind some text, as the grammar places it. -/
theorem Scan.Cut.item?_token {k : Cut} {kind : TokenKind} (h : k.piece = .token kind)
    (text before : List Char) :
    k.item? ((Place.start text).past before) =
      some (.token (.behind (lineBehind text) before k.taken kind)) := by
  rw [item?, h, ← Place.past_append, offset_start_past, offset_start_past]
  rfl

namespace Tokenized
variable {line : List Char → Nat} {before cs : List Char} {c : Char} {ts : List Token}

theorem nil_iff : Tokenized line before [] ts ↔ ts = [.behind line before [] .endOfFile] := by
  constructor
  · intro h
    rcases h.of_gapless gapless_nil with ⟨-, hts⟩ | ⟨lexeme, rest, kind, us, htext, hmunch, -, -⟩
    · exact hts
    · obtain ⟨c, cs, rfl, -⟩ := hmunch.written.exists_cons
      cases htext
  · rintro rfl
    have hstop : Tokenized line before [] _ := stop (.nil [])
    rwa [List.append_nil] at hstop

theorem blank_iff (hc : Scan.isBlank c = true) :
    Tokenized line before (c :: cs) ts ↔ Tokenized line (before ++ [c]) cs ts :=
  ⟨fun h => h.of_blank hc, gap_append (.blank hc (.nil cs))⟩

theorem comment_iff {body rest : List Char} (hbody : '\n' ∉ body)
    (hend : Stops (· != '\n') rest) : Tokenized line before ('/' :: '/' :: (body ++ rest)) ts ↔
      Tokenized line (before ++ '/' :: '/' :: body) rest ts := by
  refine ⟨fun h => h.of_comment hbody hend, fun h => ?_⟩
  have hgap : Gap ('/' :: '/' :: (body ++ [])) rest := .comment hbody hend (.nil rest)
  rw [List.append_nil] at hgap
  exact gap_append hgap h

/-- Where the scan finds no gap the grammar allows none, and the token that it wants is the one that
was found. -/
theorem exists_of_cut (h : Tokenized line before (c :: cs) ts) (hblank : Scan.isBlank c = false)
    (hgap : (Scan.cut c cs).piece ≠ .gap) :
    ∃ kind us, (Scan.cut c cs).piece = .token kind ∧
      ts = .behind line before (Scan.cut c cs).taken kind :: us ∧
        Tokenized line (before ++ (Scan.cut c cs).taken) (Scan.cut c cs).rest us := by
  have hgapless : Gapless (c :: cs) := ⟨stops_cons hblank cs, Scan.not_comment hgap⟩
  rcases h.of_gapless hgapless with
    ⟨hnil, -⟩ | ⟨lexeme, rest, kind, us, htext, hmunch, hts, hus⟩
  · cases hnil
  · rw [Scan.cut_munch hmunch htext.symm]
    exact ⟨kind, us, rfl, hts, hus⟩

theorem token_iff {kind : TokenKind} (hblank : Scan.isBlank c = false)
    (h : (Scan.cut c cs).piece = .token kind) :
    Tokenized line before (c :: cs) ts ↔
      ∃ us, ts = .behind line before (Scan.cut c cs).taken kind :: us ∧
        Tokenized line (before ++ (Scan.cut c cs).taken) (Scan.cut c cs).rest us := by
  constructor
  · intro ht
    obtain ⟨kind', us, hpiece, hts, hus⟩ := ht.exists_of_cut hblank (by simp [h])
    rw [h] at hpiece
    obtain rfl := Scan.Piece.token.inj hpiece
    exact ⟨us, hts, hus⟩
  · rintro ⟨us, rfl, hus⟩
    rw [← Scan.cut_append c cs]
    simpa using token (.nil _) (Scan.munch_cut h) (by simpa using hus)

theorem not_of_fault {cause : ScanFault.Cause} (hblank : Scan.isBlank c = false)
    (h : (Scan.cut c cs).piece = .fault cause) : ¬ Tokenized line before (c :: cs) ts := by
  intro ht
  obtain ⟨kind, -, hpiece, -⟩ := ht.exists_of_cut hblank (by simp [h])
  rw [h] at hpiece
  cases hpiece

/-- The grammar and the scan agree about whatever part of a text stands behind some other. -/
theorem iff_items {text : List Char} (before cs : List Char) (htext : before ++ cs = text)
    (ts : List Token) :
    Tokenized (Scan.lineBehind text) before cs ts ↔
      (Scan.items ((Scan.Place.start text).past before) cs).filterMap Scan.Item.fault? = [] ∧
        ts = (Scan.items ((Scan.Place.start text).past before) cs).filterMap Scan.Item.token? ++
          [Scan.endToken text] := by
  match cs with
  | [] =>
      obtain rfl : before = text := by rwa [List.append_nil] at htext
      simp [nil_iff, Scan.items_nil, Scan.behind_nil]
  | c :: cs =>
      by_cases hblank : Scan.isBlank c = true
      · rw [blank_iff hblank, iff_items (before ++ [c]) cs (by simpa using htext),
          Scan.items_of_isBlank _ hblank, Scan.Place.past_append]
      rw [Bool.not_eq_true] at hblank
      -- behind the first piece the induction hypothesis says how the text goes on
      have hrest (us : List Token) :=
        iff_items (before ++ (Scan.cut c cs).taken) (Scan.cut c cs).rest
          (by rw [List.append_assoc, Scan.cut_append, htext]) us
      rw [Scan.Place.past_append] at hrest
      rw [Scan.items_cons, List.filterMap_append, List.filterMap_append]
      rcases Scan.front hblank cs with ⟨kind, hpiece, -⟩ |
        ⟨body, rest, hbody, hend, hcs⟩ | ⟨cause, hpiece⟩
      · rw [token_iff hblank hpiece, Scan.Cut.item?_token hpiece]
        simp only [hrest]
        constructor
        · rintro ⟨us, rfl, hclean, rfl⟩
          exact ⟨hclean, rfl⟩
        · rintro ⟨hclean, hts⟩
          exact ⟨_, hts, hclean, rfl⟩
      · cases hcs
        rw [Scan.cut_comment hbody hend] at hrest ⊢
        rw [comment_iff hbody hend, hrest]
        rfl
      · simp [not_of_fault hblank hpiece, Scan.Cut.item?, hpiece, Scan.Item.fault?]
termination_by cs.length
decreasing_by
  · exact Nat.lt_succ_self _
  · exact Scan.cut_rest_length c cs

end Tokenized

namespace Scan
variable {source : String} {ts : List Token}

/-- A text is scanned without a fault just when the grammar takes it apart, and into the same
tokens. -/
theorem tokenized_iff :
    Tokenized (lineBehind source.toList) [] source.toList ts ↔
      (ofSource source).faults = [] ∧ (ofSource source).tokens = ts := by
  rw [Tokenized.iff_items [] source.toList (List.nil_append _), Place.past_nil]
  constructor
  · rintro ⟨hclean, rfl⟩
    rw [ofSource_eq hclean]
    exact ⟨rfl, rfl⟩
  · rintro ⟨hclean, rfl⟩
    have hitems := filterMap_fault?_of_faults_eq_nil hclean
    rw [ofSource_eq hitems]
    exact ⟨hitems, rfl⟩

/-- In a text that is not too long lines are counted by the newlines before a place. -/
theorem tokenized_lineBehind_iff (hsize : byteLength source.toList < UInt32.size) :
    Tokenized Text.lineBehind [] source.toList ts ↔
      Tokenized (lineBehind source.toList) [] source.toList ts := by
  have hline : ∀ before, before <+: [] ++ source.toList →
      Text.lineBehind before = lineBehind source.toList before := by
    rintro before ⟨after, htext⟩
    have hcount := @line_start_past_of_lt source.toList before after htext.symm hsize
    rw [lineBehind, hcount, Text.lineBehind, Nat.add_comm]
  exact ⟨fun h => h.congr_line hline, fun h => h.congr_line fun before hb => (hline before hb).symm⟩

/-- The only way to take a text apart into gaps and longest lexemes, with places that can be checked
in the text, and one token for the end of the file. -/
structure Tokenization (source : String) (ts : List Token) : Prop where
  tokenized : Tokenized Text.lineBehind [] source.toList ts
  unique : ∀ us, Tokenized Text.lineBehind [] source.toList us → us = ts
  slice : ∀ t ∈ ts, slice? source.toList t.span.start t.span.stop = some t.text.toList
  line : ∀ t ∈ ts, ∃ before, slice? source.toList 0 t.span.start = some before ∧
    t.line = 1 + before.count '\n'
  /-- All lines are of 32 bits, except that of the end of the longest text, if that is all
  newlines. -/
  fits : ∀ t ∈ ts, t.line < UInt32.size ∨
    t.kind = .endOfFile ∧ source.toList = List.replicate (UInt32.size - 1) '\n'
  ends : ∃ us last, ts = us ++ [last] ∧ (∀ u ∈ us, u.kind ≠ .endOfFile) ∧
    last.kind = .endOfFile ∧
    last.span = ⟨byteLength source.toList, byteLength source.toList⟩

theorem slice?_of_stands {w : Word} (h : w.Stands source.toList)
    (hsize : byteLength source.toList < UInt32.size) :
    slice? source.toList w.span.start w.span.stop = some w.text.toList ∧
      ∃ before, slice? source.toList 0 w.span.start = some before ∧
        w.line = 1 + before.count '\n' := by
  obtain ⟨before, after, htext, hline, hspan⟩ := h
  rw [List.append_assoc] at htext
  rw [LineMap.lineOf_ofText htext hsize] at hline
  rw [hspan, htext, ← List.append_assoc]
  refine ⟨slice?_append before w.text.toList after, before, ?_, by rw [hline, Nat.add_comm]⟩
  simpa using slice?_append [] before (w.text.toList ++ after)

/-- Only behind all of a text can there be so many newlines. -/
theorem lineBehind_lt_or {before after : List Char} (htext : source.toList = before ++ after)
    (hsize : byteLength source.toList < UInt32.size) :
    Text.lineBehind before < UInt32.size ∨
      after = [] ∧ source.toList = List.replicate (UInt32.size - 1) '\n' := by
  have hcount : before.count '\n' ≤ before.length := List.count_le_length
  have hlength := length_le_byteLength before
  have hall := byteLength_append before after
  rw [← htext] at hall
  unfold Text.lineBehind
  rcases Nat.lt_or_ge (1 + before.count '\n') UInt32.size with hlt | hge
  · exact .inl hlt
  · obtain rfl : after = [] := eq_nil_of_byteLength_eq_zero (by omega)
    have hnewlines : before.count '\n' = before.length := by omega
    rw [htext, List.append_nil]
    refine .inr ⟨rfl, List.eq_replicate_iff.mpr ⟨by omega, fun c hc => ?_⟩⟩
    exact (List.count_eq_length.mp hnewlines c hc).symm

theorem tokenization_ofSource (hsize : byteLength source.toList < UInt32.size)
    (h : (ofSource source).faults = []) : Tokenization source (ofSource source).tokens := by
  obtain ⟨ts, htokens, hordered, hts⟩ := exists_tokens source
  have hcases : ∀ t ∈ (ofSource source).tokens, t ∈ ts ∨ t = endToken source.toList := by
    intro t ht
    rw [htokens] at ht
    exact (List.mem_append.mp ht).imp_right List.mem_singleton.mp
  have hstands : ∀ t ∈ (ofSource source).tokens, t.toWord.Stands source.toList := by
    intro t ht
    rcases hcases t ht with ht | rfl
    · exact (hts t ht).2
    · exact stands_endToken source.toList
  exact {
    tokenized := (tokenized_lineBehind_iff hsize).mpr (tokenized_iff.mpr ⟨h, rfl⟩)
    unique := fun us hus =>
      (tokenized_iff.mp ((tokenized_lineBehind_iff hsize).mp hus)).2.symm
    slice := fun t ht => (slice?_of_stands (hstands t ht) hsize).1
    line := fun t ht => (slice?_of_stands (hstands t ht) hsize).2
    fits := by
      intro t ht
      obtain ⟨before, after, htext, hline, hspan⟩ := hstands t ht
      rw [List.append_assoc] at htext
      rw [LineMap.lineOf_ofText htext hsize, Nat.add_comm] at hline
      refine (lineBehind_lt_or htext hsize).imp (fun hlt => hline ▸ hlt) fun ⟨hnil, hall⟩ => ?_
      rcases hcases t ht with ht | rfl
      · -- no other token is empty
        have hlt := hordered.nonempty t ht
        rw [hspan, (List.append_eq_nil_iff.mp hnil).1, List.append_nil] at hlt
        exact absurd hlt (Nat.lt_irrefl _)
      · exact ⟨rfl, hall⟩
    ends := ⟨ts, endToken source.toList, htokens, fun t ht => (hts t ht).1, rfl, by
      simp [endToken, offset_start_past]⟩ }

/-- Keywords at the start of a longer name and in a comment, a point behind digits, and slashes and
a newline inside a string. -/
theorem tokenization_ofSource_dense :
    let source := "classy//or\n1.<=\"a//\né\"/"
    byteLength source.toList < UInt32.size ∧ (ofSource source).faults = [] ∧
      (ofSource source).tokens.map Token.kind =
        [.name, .number (.ofRatio 1 1), .symbol .dot, .symbol .lessEqual, .string "a//\né",
          .symbol .slash, .endOfFile] ∧
      Tokenization source (ofSource source).tokens :=
  ⟨by decide +kernel, by decide +kernel, by decide +kernel,
    tokenization_ofSource (by decide +kernel) (by decide +kernel)⟩

end Scan

end LamScope
