import LamScope.Analysis
import LamScope.Proofs.Diagnostic.Underline
import LamScope.Proofs.Reading.Names
import LamScope.Proofs.Reading.Spans
import LamScope.Proofs.Scope.Stops
import LamScope.Proofs.Token.Places

/-!
# Places of what is reported

Whatever is reported of a text was found at words of the text, at what a scan could not make words
of, or at a node of the program. Main statement: the line reported is the one that the span starts
on, the labels of every diagnostic lie in the text, and as long as columns fit 32 bits every
diagnostic is shown with a caret at its place.
-/
namespace LamScope

open Course

section
variable {source : String} {line : Nat} {span : Span} {taken : List Char}

theorem Span.Holds.inText {cs : List Char} (h : span.Holds cs line taken) : span.InText cs := by
  obtain ⟨before, after, rfl, -, rfl⟩ := h
  refine ⟨?_, Text.boundary_append _ _, ?_⟩
  · rw [List.append_assoc]
    exact Text.boundary_append _ _
  · rw [Text.byteLength_append]
    exact Nat.le_add_right _ _

theorem Span.Holds.line_eq (h : span.Holds source.toList line taken) :
    line = (LineMap.ofSource source).lineOf span.start := by
  obtain ⟨before, after, -, rfl, rfl⟩ := h
  rfl

end

/-- The tokens to come stand in the text, one after the other. -/
structure Cursor.Follows (cs : List Char) (c : Cursor) : Prop where
  words : c.Over (Word.Stands cs)
  ordered : Token.Ordered c.upcoming
  faults : c.faults = []

theorem Cursor.follows_ofSource (source : String) :
    (Cursor.ofTokens (Scan.ofSource source).tokens).Follows source.toList := by
  obtain ⟨ts, htokens, hordered, hts⟩ := Scan.exists_tokens source
  rw [htokens, Cursor.ofTokens_concat (fun t ht => (hts t ht).1) rfl]
  exact ⟨⟨rfl, Scan.stands_endToken _, fun t ht => (hts t ht).2⟩, hordered, rfl⟩

namespace Cursor.Follows
variable {cs : List Char} {c : Cursor} (hc : c.Follows cs)
include hc

theorem inText_of_within {span : Span} (h : Rough.Within c.upcoming span) : span.InText cs := by
  obtain ⟨t, ht, hstart⟩ := h.start
  obtain ⟨u, hu, hstop⟩ := h.stop
  have htext := (hc.words.upcoming t ht).inText
  have hutext := (hc.words.upcoming u hu).inText
  exact ⟨hstart ▸ htext.start, hstop ▸ hutext.stop, h.le⟩

/-- Syntax faults stand at words of the text. -/
theorem shownBy_of_mem_faults {f : SyntaxFault} (h : f ∈ (Program.ofCursor c).faults) :
    f.ShownBy (Word.Stands cs) := by
  obtain ⟨ts, hpasses, -⟩ := Program.ofCursor_goes hc.words
  refine (hpasses.faults f h).elim (fun hf => ?_) id
  rw [hc.faults] at hf
  cases hf

/-- Different words are apart. -/
theorem pairwise_apart {ws : List Word} (h : Rough.Names c.upcoming ws) :
    ws.Pairwise fun v w => v.span.Apart w.span := by
  have htokens : (c.upcoming.map Token.toWord).Pairwise fun v w => v.span.Apart w.span := by
    refine List.pairwise_map.mpr (hc.ordered.apart.imp_of_mem fun ht hu hle => ?_)
    exact ⟨hc.ordered.nonempty _ ht, hc.ordered.nonempty _ hu, .inl hle⟩
  obtain ⟨vs, hperm, hsub⟩ := h
  exact (hperm.pairwise_iff fun hapart => hapart.symm).mp (htokens.sublist hsub)

/-- A finding stands at a word of the text, and what it refers to are words apart from it. -/
theorem exists_word {limit : Nat} {f : Finding}
    (h : f ∈ (resolve limit (Program.ofCursor c).statements).findings) :
    ∃ (w : Word) (vs : List Word), w.Stands cs ∧ f.line = w.line ∧
      f.spans = w.span :: vs.map Word.span ∧ ∀ v ∈ vs, v.Stands cs ∧ w.span.Apart v.span := by
  obtain ⟨w, vs, hwords, hline, hspans⟩ := among_of_mem_findings h
  have hnames : Rough.Names c.upcoming (w :: vs) :=
    (Program.names_ofCursor hc.words.closed).of_subperm hwords
  have hstands : ∀ v ∈ w :: vs, v.Stands cs := by
    intro v hv
    obtain ⟨t, ht, rfl⟩ := List.mem_map.mp (hnames.subset hv)
    exact hc.words.upcoming t ht
  have hapart := (List.pairwise_cons.mp (hc.pairwise_apart hnames)).1
  exact ⟨w, vs, hstands w List.mem_cons_self, hline, hspans,
    fun v hv => ⟨hstands v (List.mem_cons_of_mem w hv), hapart v hv⟩⟩

/-- A walk over the program stops at a node, which lies in the text. -/
theorem inText_of_stopped {limit : Nat} {t : TooDeep}
    (h : (resolve limit (Program.ofCursor c).statements).stopped = some t) :
    t.span.InText cs := by
  rw [resolve_eq] at h
  exact hc.inText_of_within (Walk.program_stopsAt limit
    (Program.within_ofCursor hc.words.closed hc.ordered) .start t h)

end Cursor.Follows

/-- The first label is the foremost. -/
def Diagnostic.Located (cs : List Char) (d : Diagnostic) : Prop :=
  ∃ l others, d.labels = l :: others ∧ l.Foremost cs others

section
variable {cs : List Char}

theorem Diagnostic.Located.inText {d : Diagnostic} (h : d.Located cs) :
    ∀ l ∈ d.labels, l.span.InText cs := by
  obtain ⟨l, others, hlabels, hl⟩ := h
  rw [hlabels]
  exact List.forall_mem_cons.mpr ⟨hl.inText, fun s hs => (hl.others s hs).2.1⟩

/-- A diagnostic with one label. -/
theorem Diagnostic.located_of_single {d : Diagnostic} {span : Span} {message : String}
    (hlabels : d.labels = [.primary span message]) (h : span.InText cs) : d.Located cs :=
  ⟨_, [], hlabels, ⟨rfl, h, nofun⟩⟩

/-- An unclosed string is marked at its quote, which is one byte long. -/
theorem ScanFault.located {f : ScanFault} (h : f.Stands cs) : f.diagnostic.Located cs := by
  obtain ⟨taken, hholds, hquote⟩ := h
  refine Diagnostic.located_of_single rfl ?_
  obtain ⟨cause, line, span⟩ := f
  cases cause with
  | unexpectedCharacter c => exact hholds.inText
  | malformedNumber => exact hholds.inText
  | unterminatedString =>
      obtain ⟨before, after, rfl, hline, rfl⟩ := hholds
      obtain ⟨rest, rfl⟩ : ∃ rest, taken = '"' :: rest := by
        cases taken with
        | nil => cases hquote rfl
        | cons c rest => exact ⟨rest, congrArg (· :: rest) (Option.some.inj (hquote rfl))⟩
      have hmarked : Span.Holds (before ++ '"' :: rest ++ after) line
          ⟨Text.byteLength before, Text.byteLength before + 1⟩ ['"'] := by
        refine ⟨before, rest ++ after, by simp, hline, ?_⟩
        rw [Text.byteLength_append]
        rfl
      exact hmarked.inText

theorem SyntaxFault.located {f : SyntaxFault} (h : f.ShownBy (Word.Stands cs)) :
    f.diagnostic.Located cs := by
  obtain ⟨w, hw, -, hspan⟩ := h
  refine Diagnostic.located_of_single rfl ?_
  have hmarked : f.cause.faultClass.marked f.span = w.span := by
    rw [← hspan]
    cases f.cause <;> rfl
  exact hmarked ▸ hw.inText

theorem Finding.labels_diagnostic (f : Finding) :
    ∃ l others, f.diagnostic.labels = l :: others ∧ l.role = .primary ∧ l.span = f.span ∧
      (∀ s ∈ others, s.role = .secondary) ∧ l.span :: others.map Label.span = f.spans := by
  obtain ⟨cause, line, span⟩ := f
  cases cause with
  | duplicate name previous => exact ⟨_, _, rfl, rfl, rfl, by simp [Label.secondary], rfl⟩
  | selfReference name outer =>
      cases outer with
      | none => exact ⟨_, _, rfl, rfl, rfl, nofun, rfl⟩
      | some outer => exact ⟨_, _, rfl, rfl, rfl, by simp [Label.secondary], rfl⟩
  | unused name => exact ⟨_, _, rfl, rfl, rfl, nofun, rfl⟩
  | strayReturn => exact ⟨_, _, rfl, rfl, rfl, nofun, rfl⟩

theorem Finding.located {f : Finding} {w : Word} {vs : List Word} (hw : w.Stands cs)
    (hspans : f.spans = w.span :: vs.map Word.span)
    (hvs : ∀ v ∈ vs, v.Stands cs ∧ w.span.Apart v.span) : f.diagnostic.Located cs := by
  obtain ⟨l, others, hlabels, hrole, -, hroles, hall⟩ := f.labels_diagnostic
  obtain ⟨hl, hothers⟩ := List.cons.inj (hall.trans hspans)
  refine ⟨l, others, hlabels, hrole, hl ▸ hw.inText, fun s hs => ⟨hroles s hs, ?_⟩⟩
  obtain ⟨v, hv, hspan⟩ := List.mem_map.mp (hothers ▸ List.mem_map_of_mem hs)
  rw [← hspan, hl]
  exact ⟨(hvs v hv).1.inText, (hvs v hv).2⟩

end

namespace Analysis

theorem mem_findings {policy : Policy} {source : String} {f : Finding}
    (h : f ∈ (ofSource policy source).findings) :
    f ∈ (resolve policy.limit (Program.ofSource source).statements).findings := by
  unfold ofSource at h
  dsimp only at h
  split at h
  · exact h
  · cases h

theorem mem_aborted {policy : Policy} {source : String} {t : TooDeep}
    (h : (ofSource policy source).aborted = some t) :
    (resolve policy.limit (Program.ofSource source).statements).stopped = some t := by
  unfold ofSource at h
  dsimp only at h
  split at h
  · exact h
  · cases h

theorem scanFaults_ofSource (policy : Policy) (source : String) :
    (ofSource policy source).scanFaults = (Scan.ofSource source).faults := by
  unfold ofSource
  dsimp only
  split <;> rfl

theorem syntaxFaults_ofSource (policy : Policy) (source : String) :
    (ofSource policy source).syntaxFaults = (Program.ofSource source).faults := by
  unfold ofSource
  dsimp only
  split <;> rfl

theorem located_of_mem_diagnostics {policy : Policy} {source : String} {d : Diagnostic}
    (h : d ∈ (ofSource policy source).diagnostics) : d.Located source.toList := by
  have hc := Cursor.follows_ofSource source
  simp only [diagnostics, List.mem_append, List.mem_map, Option.mem_toList] at h
  rcases h with ((⟨f, hf, rfl⟩ | ⟨f, hf, rfl⟩) | ⟨f, hf, rfl⟩) | ⟨t, ht, rfl⟩
  · rw [scanFaults_ofSource] at hf
    exact ScanFault.located (Scan.stands_of_mem_faults hf)
  · rw [syntaxFaults_ofSource] at hf
    exact SyntaxFault.located (hc.shownBy_of_mem_faults hf)
  · obtain ⟨w, vs, hw, -, hspans, hvs⟩ := hc.exists_word (mem_findings hf)
    exact Finding.located hw hspans hvs
  · exact Diagnostic.located_of_single rfl (hc.inText_of_stopped (mem_aborted ht))

/-- All that is reported of a text is reported with its place. -/
structure Placed (source : String) (a : Analysis) : Prop where
  scanFaults : ∀ f ∈ a.scanFaults, f.line = (LineMap.ofSource source).lineOf f.span.start
  syntaxFaults : ∀ f ∈ a.syntaxFaults, f.line = (LineMap.ofSource source).lineOf f.span.start
  findings : ∀ f ∈ a.findings, f.line = (LineMap.ofSource source).lineOf f.span.start
  labels : ∀ d ∈ a.diagnostics, ∀ l ∈ d.labels,
    l.span.InText source.toList ∧ l.span.stop ≤ Text.byteLength source.toList
  primary : ∀ d ∈ a.diagnostics, ∃ primary, d.primarySpan? = some primary
  /-- All offsets of a text of less than that length have columns of 32 bits. -/
  shown : Text.byteLength source.toList < UInt32.size - 1 →
    ∀ d ∈ a.diagnostics, ∀ primary, d.primarySpan? = some primary →
      ∀ file, ∃ e width, (d.styled (.ofSource source) file).Underlines
        ((LineMap.ofSource source).position primary.start) e width

/-- A block that is not closed is reported at the end of its text. -/
theorem diagnostics_of_openBlock {source : String} {n : Nat}
    (htext : source.toList = '\x7b' :: List.replicate n ' ') :
    (ofSource .default source).diagnostics = [FaultClass.expected.diagnostic ⟨n + 1, n + 1⟩
      "Expected '\x7d' to close block, found end of file"
      (some "every '\x7b' needs a matching '\x7d'")] := by
  have hbrace : Text.byteLength ['\x7b'] = 1 := by decide
  have hstop : Text.byteLength source.toList = n + 1 := by
    rw [htext, ← List.singleton_append, Text.byteLength_append, hbrace, Text.byteLength_replicate,
      Nat.add_comm]
  have hfound : ∃ l, Scan.found source.toList =
      [.token ⟨⟨"\x7b", l, ⟨0, 1⟩⟩, .symbol .leftBrace⟩] := by
    have hcut : Scan.cut '\x7b' (List.replicate n ' ') =
        ⟨.token (.symbol .leftBrace), ['\x7b'], List.replicate n ' '⟩ := rfl
    have hrest := Scan.items_replicate ((Scan.Place.start source.toList).past ['\x7b']) n []
    rw [List.append_nil, Scan.items_nil] at hrest
    refine ⟨(Scan.Place.start source.toList).line, ?_⟩
    unfold Scan.found
    generalize hp : Scan.Place.start source.toList = p at hrest ⊢
    rw [htext, Scan.items_cons, hcut, hrest, ← hp, Scan.Cut.item?, Scan.offset_start_past, hbrace]
    rfl
  obtain ⟨l, hfound⟩ := hfound
  have hscan : Scan.ofSource source =
      ⟨[⟨⟨"\x7b", l, ⟨0, 1⟩⟩, .symbol .leftBrace⟩, Scan.endToken source.toList], []⟩ := by
    unfold Scan.ofSource
    rw [hfound]
    rfl
  have hend : Scan.endToken source.toList =
      ⟨⟨"", (Scan.endToken source.toList).line, ⟨n + 1, n + 1⟩⟩, .endOfFile⟩ := by
    unfold Scan.endToken
    dsimp only
    rw [Scan.offset_start_past, hstop]
  unfold ofSource
  rw [hscan, hend]
  rfl

end Analysis

end LamScope
