import LamScope.Proofs.Reading.TapeReading
import Mathlib.Data.List.TakeWhile

/-!
# Reading ends

A tape made of any list of tokens shows the cursor made of that list, so reading by position ends,
and with the same result. Main statement: this holds for programs and for expressions; the position
stays where the first end of file is or before it, every round that asks for another one has taken a
token, and nothing behind an end of file makes a difference.
-/
namespace LamScope

namespace Tape

theorem Shows.within {tokens : List Token} {t : Tape} {c : Cursor} (h : t.Shows tokens c) :
    t.Within := ⟨_, h.same ▸ h.ends, Nat.le_add_right _ _⟩

/-- A tape whose position is not behind the first end of file shows a cursor. -/
theorem Within.exists_shows {t : Tape} (h : t.Within) : ∃ c, t.Shows t.tokens c := by
  obtain ⟨e, hends, hle⟩ := h
  obtain ⟨hlt, -⟩ := List.findIdx?_eq_some_iff_getElem.mp hends
  have hlength : ((t.tokens.drop t.position).take (e - t.position)).length = e - t.position := by
    rw [List.length_take, List.length_drop]
    omega
  have hsum : t.position + (e - t.position) = e := by omega
  refine ⟨⟨t.tokens[t.position - 1], (t.tokens.drop t.position).take (e - t.position),
    t.tokens[e], t.faults, t.nextId, 0⟩, ?_⟩
  constructor
  · rfl
  · rw [hlength, hsum]
    exact hends
  · exact List.take_prefix _ _
  · rw [hlength, hsum]
    exact List.getElem?_eq_getElem hlt
  · exact List.getElem?_eq_getElem _
  · rfl
  · rfl

theorem Answer.Shows.next {α : Type} {tokens : List Token} {answer : Answer α} {reply : Reply α}
    (h : answer.Shows tokens reply) : answer.next.Shows tokens reply.next := by
  cases h with
  | ok h => exact h
  | failed h => exact h

/-- Where fewer tokens are still to come, the position is greater. -/
theorem Shows.position_lt {tokens : List Token} {t next : Tape} {c d : Cursor}
    (h : t.Shows tokens c) (h' : next.Shows tokens d)
    (hfewer : d.upcoming.length < c.upcoming.length) : t.position < next.position := by
  have hends := Option.some.inj (h.ends.symm.trans h'.ends)
  omega

/-- What the rounds of a parser take, the rounds on a tape that perform them take as well. -/
theorem progresses_of_repeats {σ ρ : Type} {round : σ → Reader (Round σ ρ)}
    {step : σ → Parser (Round σ ρ)} {within : List Token → σ → Parser ρ}
    [hround : ∀ s, Performs (round s) (step s)] (hrepeats : Parser.Repeats step within) :
    Reader.Progresses round := by
  intro s t ht
  obtain ⟨c, h⟩ := ht.exists_shows
  obtain ⟨answer, hanswer, hshows⟩ := (hround s).performs h
  refine ⟨answer, hanswer, hshows.next.same, hshows.next.within, ?_⟩
  rintro s' next rfl
  cases hstep : step s c with
  | failed f d =>
      rw [hstep] at hshows
      cases hshows
  | ok asked d =>
      rw [hstep] at hshows
      cases hshows with
      | ok hnext => exact h.position_lt hnext (hrepeats.takes h.closed hstep)

theorem Levels.progress_ofDepth (n : Nat) : (ofDepth n).Progress where
  statements x := progresses_of_repeats (Parser.statementStep_repeats x
    (Parser.consumes_declaration (ofDepth_perform n).consumes))
  skipped x := progresses_of_repeats (Parser.skipStep_repeats x)
  methods := progresses_of_repeats (Parser.methodStep_repeats (LamScope.Levels.ofDepth n))
  parameters := progresses_of_repeats (Parser.itemStep_repeats fun _ => Parser.expectName)
  arguments := progresses_of_repeats
    (Parser.itemStep_repeats (Parser.argument (LamScope.Levels.ofDepth n)))
  operators floor := progresses_of_repeats
    (Parser.operatorStep_repeats (LamScope.Levels.ofDepth n) floor)

end Tape

namespace Cursor

/-- Nothing behind the first end of file counts. -/
theorem ofTokens_of_first {xs ys : List Token} {e : Token} (hxs : ∀ u ∈ xs, u.kind ≠ .endOfFile)
    (he : e.kind = .endOfFile) :
    ofTokens (xs ++ e :: ys) = ⟨(xs ++ [e]).head?.getD e, xs, e, [], 0, 0⟩ := by
  have hfind : (xs ++ e :: ys).find? (fun u => u.kind == .endOfFile) = some e := by
    rw [List.find?_append, List.find?_eq_none.mpr fun u hu => by simpa using hxs u hu]
    simp [he]
  have hbefore : (xs ++ e :: ys).takeWhile (fun u => !(u.kind == .endOfFile)) = xs := by
    rw [List.takeWhile_append_of_pos fun u hu => by simpa using hxs u hu]
    simp [he]
  have hhead : (xs ++ e :: ys).head?.getD e = (xs ++ [e]).head?.getD e := by
    cases xs <;> rfl
  unfold ofTokens
  simp only [hfind, hbefore, hhead]

/-- The tokens up to an end of file that is the first one, and those behind it. -/
theorem exists_first {tokens : List Token} (h : ∃ u ∈ tokens, u.kind = .endOfFile) :
    ∃ xs e ys, tokens = xs ++ e :: ys ∧ (∀ u ∈ xs, u.kind ≠ .endOfFile) ∧
      e.kind = .endOfFile := by
  have hsome : (tokens.find? (·.kind == .endOfFile)).isSome := by
    rw [List.find?_isSome]
    simpa using h
  obtain ⟨e, hfind⟩ := Option.isSome_iff_exists.mp hsome
  obtain ⟨he, xs, ys, rfl, hxs⟩ := List.find?_eq_some_iff_append.mp hfind
  exact ⟨xs, e, ys, rfl, by simpa using hxs, by simpa using he⟩

theorem ofTokens_append_end (xs ys : List Token) {e : Token} (he : e.kind = .endOfFile) :
    ofTokens (xs ++ e :: ys) = ofTokens (xs ++ [e]) := by
  have hend : ∃ u ∈ xs ++ [e], u.kind = .endOfFile := ⟨e, by simp, he⟩
  obtain ⟨zs, f, zs', h, hzs, hf⟩ := exists_first hend
  have hlonger : xs ++ e :: ys = zs ++ f :: (zs' ++ ys) := by
    rw [← List.singleton_append, ← List.append_assoc, h, List.append_assoc, List.cons_append]
  rw [hlonger, h, ofTokens_of_first hzs hf, ofTokens_of_first hzs hf]

end Cursor

namespace Tape

theorem exists_end_closed (tokens : List Token) : ∃ u ∈ closed tokens, u.kind = .endOfFile := by
  unfold closed
  split
  · exact ⟨_, List.mem_singleton.mpr rfl, rfl⟩
  · rename_i t h
    split
    · rename_i hk
      exact ⟨t, List.mem_of_getLast? h, hk⟩
    · exact ⟨_, List.mem_append_right _ (List.mem_singleton.mpr rfl), rfl⟩

theorem ofTokens_closed (tokens : List Token) :
    Cursor.ofTokens (closed tokens) = Cursor.ofTokens tokens := by
  unfold closed
  split
  · rename_i h
    rw [List.getLast?_eq_none_iff.mp h]
    rfl
  · rename_i t h
    split
    · rfl
    · by_cases hend : ∃ u ∈ tokens, u.kind = .endOfFile
      · obtain ⟨xs, e, ys, rfl, hxs, he⟩ := Cursor.exists_first hend
        rw [List.append_assoc, List.cons_append, Cursor.ofTokens_of_first hxs he,
          Cursor.ofTokens_of_first hxs he]
      · have hnone : ∀ u ∈ tokens, u.kind ≠ .endOfFile := fun u hu hk => hend ⟨u, hu, hk⟩
        have hfind : tokens.find? (fun u => u.kind == .endOfFile) = none :=
          List.find?_eq_none.mpr fun u hu => by simpa using hnone u hu
        have hbefore : tokens.takeWhile (fun u => !(u.kind == .endOfFile)) = tokens := by
          rw [List.takeWhile_eq_self_iff]
          intro u hu
          simpa using hnone u hu
        rw [Cursor.ofTokens_of_first hnone rfl]
        unfold Cursor.ofTokens
        simp only [hfind, h, hbefore]
        cases tokens <;> rfl

theorem shows_ofTokens (tokens : List Token) :
    (ofTokens tokens).Shows (closed tokens) (Cursor.ofTokens tokens) := by
  rw [← ofTokens_closed]
  obtain ⟨xs, e, ys, h, hxs, he⟩ := Cursor.exists_first (exists_end_closed tokens)
  unfold ofTokens
  rw [h, Cursor.ofTokens_of_first hxs he]
  constructor
  · rfl
  · have hnone : xs.findIdx? (·.kind == .endOfFile) = none := by
      rw [List.findIdx?_eq_none_iff]
      simpa using hxs
    rw [List.findIdx?_append, hnone, List.findIdx?_cons]
    simp [he]
  · exact List.prefix_append _ _
  · simp
  · cases xs <;> simp
  · rfl
  · rfl

/-- From any list of tokens, reading a program or an expression by position ends with what is read
of it, no further on than the first end of file; at every level of nesting a round that asks for
another has taken a token; and tokens behind an end of file change nothing. -/
theorem agrees_ofTokens (tokens : List Token) :
    (∃ last, .ok (Program.ofTokens tokens).statements last ∈ Reader.program (ofTokens tokens) ∧
      last.faults = (Program.ofTokens tokens).faults ∧ last.tokens = closed tokens ∧
      last.Within) ∧
    (∃ answer ∈ Reader.outermostExpression (ofTokens tokens),
      answer.Shows (closed tokens) (Parser.outermostExpression (.ofTokens tokens)) ∧
      answer.next.Within) ∧
    (∀ n, (Levels.ofDepth n).Progress) ∧
    ∀ (xs ys : List Token) (w : Word),
      Program.ofTokens (xs ++ ⟨w, .endOfFile⟩ :: ys) = Program.ofTokens (xs ++ [⟨w, .endOfFile⟩]) ∧
      Parser.outermostExpression (.ofTokens (xs ++ ⟨w, .endOfFile⟩ :: ys)) =
        Parser.outermostExpression (.ofTokens (xs ++ [⟨w, .endOfFile⟩])) := by
  have hstart := shows_ofTokens tokens
  refine ⟨?_, ?_, Levels.progress_ofDepth, ?_⟩
  · rw [Program.ofTokens_eq]
    have hprogram : Performs Reader.program
        (Parser.statements .file (Parser.declaration (.ofDepth maxNesting))) :=
      Reader.statements_performs .file (Reader.declaration (.ofDepth maxNesting))
        (Parser.consumes_declaration (Levels.ofDepth_perform maxNesting).consumes)
    obtain ⟨answer, hanswer, hshows⟩ := hprogram.performs hstart
    cases hshows with
    | ok hlast => exact ⟨_, hanswer, hlast.faults, hlast.same, hlast.within⟩
  · have hexpression :
        Performs Reader.outermostExpression (Parser.expression (.ofDepth maxNesting)) :=
      inferInstanceAs (Performs (Reader.expression (.ofDepth maxNesting)) _)
    obtain ⟨answer, hanswer, hshows⟩ := hexpression.performs hstart
    change answer.Shows _ (Parser.expression (Cursor.ofTokens tokens).levels _) at hshows
    rw [← Parser.expression_outermost] at hshows
    exact ⟨answer, hanswer, hshows, hshows.next.within⟩
  · intro xs ys w
    unfold Program.ofTokens
    rw [Cursor.ofTokens_append_end xs ys rfl]
    exact ⟨rfl, rfl⟩

end Tape

end LamScope
