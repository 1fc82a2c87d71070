import LamScope.Command.Help
import LamScope.Proofs.Suggest.EditDistance

/-!
# The nearest candidates

A misspelt name is to be answered with the first of the candidates that are the fewest edits away
from it, if they are near enough. Main statement: this holds of the candidates that pass the test
by length, and of all of them if no candidate near enough has another difference of length in bytes
than in characters. The test counts bytes, so it can rule out a candidate one edit away.
-/
namespace LamScope.Suggest

/-- This is the least number of edits that turn the name into the candidate, if the case of ASCII
letters does not matter. -/
def Away (name candidate : String) (n : Nat) : Prop :=
  IsLeast {k | Edits k (foldCase name) (foldCase candidate)} n

/-- The candidate is near enough to be meant. -/
def Near (name candidate : String) : Prop := ∃ n ≤ threshold name, Away name candidate n

/-- The answer is the first of the candidates that are the fewest edits away, unless none is near
enough. -/
structure Nearest (name : String) (candidates : List String) (answer : Option String) : Prop where
  none_iff : answer = none ↔ ∀ c ∈ candidates, ¬ Near name c
  first : ∀ c, answer = some c → ∃ before after, candidates = before ++ c :: after ∧
    ∃ n ≤ threshold name, Away name c n ∧ (∀ d ∈ before, ∀ k, Away name d k → n < k) ∧
      ∀ d ∈ after, ∀ k, Away name d k → n ≤ k

/-- The two differ in length by as many bytes as characters, as they do if all their characters are
ASCII. -/
def LengthsAgree (name candidate : String) : Prop :=
  (name.utf8ByteSize : Int) - candidate.utf8ByteSize = name.length - candidate.length

/-- A candidate with its distance from the name. -/
def scored (name candidate : String) : String × Nat :=
  (candidate, distance (foldCase name) (foldCase candidate))

variable {name candidate : String} {n : Nat}

theorem away_iff : Away name candidate n ↔ n = (scored name candidate).2 := by
  constructor
  · intro h
    exact h.unique (isLeast_distance _ _)
  · rintro rfl
    exact isLeast_distance _ _

theorem near_iff : Near name candidate ↔ (scored name candidate).2 ≤ threshold name := by
  constructor
  · rintro ⟨n, hn, haway⟩
    rwa [away_iff.mp haway] at hn
  · intro h
    exact ⟨_, h, away_iff.mpr rfl⟩

theorem length_foldCase (s : String) : (foldCase s).length = s.length := by
  rw [foldCase, List.length_map, String.length_toList]

/-- The test by length does no harm where bytes and characters count alike. -/
theorem similarLength_of_near (hnear : Near name candidate) (h : LengthsAgree name candidate) :
    similarLength name candidate = true := by
  obtain ⟨n, hn, hedits, -⟩ := hnear
  have hlength := Edits.length_le hedits
  rw [length_foldCase, length_foldCase] at hlength
  unfold LengthsAgree at h
  unfold similarLength
  rw [Bool.and_eq_true, decide_eq_true_eq, decide_eq_true_eq]
  constructor <;> omega

/-! ### The first of the least -/

section
variable {p : String × Nat} {ps : List (String × Nat)}

theorem least_eq_none : least ps = none ↔ ps = [] := by
  cases ps with
  | nil => simp [least]
  | cons p ps =>
      rw [least]
      split
      · split <;> simp
      · simp

/-- Those before it are farther away, and those behind it are not nearer. -/
theorem exists_of_least (h : least ps = some p) :
    ∃ before after, ps = before ++ p :: after ∧ (∀ q ∈ before, p.2 < q.2) ∧
      ∀ q ∈ after, p.2 ≤ q.2 := by
  induction ps generalizing p with
  | nil => cases h
  | cons r ps ih =>
      rw [least] at h
      cases hrest : least ps with
      | none =>
          rw [hrest] at h
          cases h
          rw [least_eq_none.mp hrest]
          exact ⟨[], [], rfl, by simp, by simp⟩
      | some q =>
          rw [hrest] at h
          obtain ⟨before, after, rfl, hbefore, hafter⟩ := ih hrest
          dsimp only at h
          split at h
          · rename_i hlt
            cases h
            exact ⟨r :: before, after, rfl, List.forall_mem_cons.mpr ⟨hlt, hbefore⟩, hafter⟩
          · cases h
            refine ⟨[], before ++ q :: after, rfl, by simp, ?_⟩
            intro x hx
            rcases List.mem_append.mp hx with hx | hx
            · have hlt := hbefore x hx
              omega
            · rcases List.mem_cons.mp hx with rfl | hx
              · omega
              · have hle := hafter x hx
                omega

/-- It does not matter whether those too far away are left out before or after the choice. -/
theorem least_filter (n : Nat) (ps : List (String × Nat)) :
    least (ps.filter fun p => p.2 ≤ n) = (least ps).filter fun p => p.2 ≤ n := by
  induction ps with
  | nil => rfl
  | cons p ps ih =>
      rw [List.filter_cons, least]
      by_cases hp : p.2 ≤ n
      · rw [if_pos (by simpa using hp), least, ih]
        cases least ps with
        | none => simp [Option.filter, hp]
        | some q =>
            by_cases hqp : q.2 < p.2
            · have hq : q.2 ≤ n := by omega
              simp [Option.filter, hq, hqp]
            · by_cases hq : q.2 ≤ n <;> simp [Option.filter, hp, hq, hqp]
      · rw [if_neg (by simpa using hp), ih]
        cases least ps with
        | none => simp [Option.filter, hp]
        | some q =>
            by_cases hqp : q.2 < p.2
            · simp [hqp]
            · have hq : ¬ q.2 ≤ n := by omega
              simp [Option.filter, hqp, hq, hp]

end

theorem closest?_eq (name : String) (candidates : List String) :
    closest? name candidates =
      ((least ((candidates.filter (similarLength name)).map (scored name))).filter
        fun p => p.2 ≤ threshold name).map Prod.fst := by
  rw [← least_filter]
  rfl

theorem exists_of_least_scored {candidates : List String} {p : String × Nat}
    (h : least (candidates.map (scored name)) = some p) :
    ∃ before c after, candidates = before ++ c :: after ∧ p = scored name c ∧
      (∀ d ∈ before, (scored name c).2 < (scored name d).2) ∧
      ∀ d ∈ after, (scored name c).2 ≤ (scored name d).2 := by
  obtain ⟨before, after, hscored, hbefore, hafter⟩ := exists_of_least h
  obtain ⟨front, rest, rfl, rfl, hrest⟩ := List.map_eq_append_iff.mp hscored
  obtain ⟨c, back, rfl, rfl, rfl⟩ := List.map_eq_cons_iff.mp hrest
  refine ⟨front, c, back, rfl, rfl, ?_, ?_⟩
  · intro d hd
    exact hbefore _ (List.mem_map_of_mem hd)
  · intro d hd
    exact hafter _ (List.mem_map_of_mem hd)

theorem scored_le_of_least {candidates : List String} {p : String × Nat}
    (h : least (candidates.map (scored name)) = some p) {d : String} (hd : d ∈ candidates) :
    p.2 ≤ (scored name d).2 := by
  obtain ⟨before, c, after, rfl, rfl, hbefore, hafter⟩ := exists_of_least_scored h
  rcases List.mem_append.mp hd with hd | hd
  · exact (hbefore d hd).le
  · rcases List.mem_cons.mp hd with rfl | hd
    · exact le_rfl
    · exact hafter d hd

theorem nearest_some {before after : List String} {c : String}
    (hnear : (scored name c).2 ≤ threshold name)
    (hbefore : ∀ d ∈ before, (scored name c).2 < (scored name d).2)
    (hafter : ∀ d ∈ after, (scored name c).2 ≤ (scored name d).2) :
    Nearest name (before ++ c :: after) (some c) := by
  constructor
  · constructor
    · intro h
      cases h
    · intro h
      exact absurd (near_iff.mpr hnear) (h c (by simp))
  · intro d hd
    cases hd
    refine ⟨before, after, rfl, _, hnear, away_iff.mpr rfl, ?_, ?_⟩
    · intro d hd k hk
      rw [away_iff.mp hk]
      exact hbefore d hd
    · intro d hd k hk
      rw [away_iff.mp hk]
      exact hafter d hd

theorem nearest_none {candidates : List String} (h : ∀ c ∈ candidates, ¬ Near name c) :
    Nearest name candidates none := by
  constructor
  · exact iff_of_true rfl h
  · intro c hc
    cases hc

theorem nearest_least (name : String) (candidates : List String) :
    Nearest name candidates
      (((least (candidates.map (scored name))).filter fun p => p.2 ≤ threshold name).map
        Prod.fst) := by
  cases hleast : least (candidates.map (scored name)) with
  | none =>
      have hnil : candidates = [] := List.map_eq_nil_iff.mp (least_eq_none.mp hleast)
      apply nearest_none
      simp [hnil]
  | some p =>
      by_cases hp : p.2 ≤ threshold name
      · rw [Option.filter_some_pos (by simpa using hp)]
        obtain ⟨before, c, after, rfl, rfl, hbefore, hafter⟩ := exists_of_least_scored hleast
        exact nearest_some hp hbefore hafter
      · rw [Option.filter_some_neg (by simpa using hp)]
        apply nearest_none
        intro d hd hnear
        have hle := scored_le_of_least hleast hd
        exact hp (hle.trans (near_iff.mp hnear))

theorem threshold_lt (hfar : ¬ Near name candidate) (haway : Away name candidate n) :
    threshold name < n := by
  by_contra hle
  exact hfar ⟨n, by omega, haway⟩

/-- Candidates that are not near enough can be left out before. -/
theorem Nearest.of_filter {candidates : List String} {answer : Option String} {f : String → Bool}
    (h : Nearest name (candidates.filter f) answer)
    (hf : ∀ c ∈ candidates, Near name c → f c = true) : Nearest name candidates answer := by
  constructor
  · rw [h.none_iff]
    constructor
    · intro hnone c hc hnear
      exact hnone c (List.mem_filter.mpr ⟨hc, hf c hc hnear⟩) hnear
    · intro hnone c hc
      exact hnone c (List.mem_filter.mp hc).1
  · intro c hc
    obtain ⟨before, after, hfilter, n, hn, haway, hbefore, hafter⟩ := h.first c hc
    obtain ⟨front, rest, rfl, rfl, hrest⟩ := List.filter_eq_append_iff.mp hfilter
    obtain ⟨skipped, behind, rfl, hskipped, -, rfl⟩ := List.filter_eq_cons_iff.mp hrest
    have hkept : ∀ d ∈ front ++ (skipped ++ c :: behind), ∀ k, Away name d k →
        n < k ∨ f d = true := by
      intro d hd k hk
      by_cases hnear : Near name d
      · exact .inr (hf d hd hnear)
      · have hlt := threshold_lt hnear hk
        exact .inl (by omega)
    refine ⟨front ++ skipped, behind, by simp, n, hn, haway, ?_, ?_⟩
    · intro d hd k hk
      rcases hkept d (by simp only [List.mem_append] at hd ⊢; tauto) k hk with hlt | hfd
      · exact hlt
      · rcases List.mem_append.mp hd with hd | hd
        · exact hbefore d (List.mem_filter.mpr ⟨hd, hfd⟩) k hk
        · exact absurd hfd (hskipped d hd)
    · intro d hd k hk
      rcases hkept d (by simp [hd]) k hk with hlt | hfd
      · omega
      · exact hafter d (List.mem_filter.mpr ⟨hd, hfd⟩) k hk

/-- The answer is the nearest candidate of those that pass the test by length. The test rules out
none that is near enough, unless its length differs from that of the name by another number of bytes
than of characters. -/
theorem nearest_closest? (name : String) (candidates : List String) :
    Nearest name (candidates.filter (similarLength name)) (closest? name candidates) ∧
      ((∀ c ∈ candidates, Near name c → LengthsAgree name c) →
        Nearest name candidates (closest? name candidates)) := by
  have hsimilar : Nearest name (candidates.filter (similarLength name))
      (closest? name candidates) := by
    rw [closest?_eq]
    exact nearest_least name (candidates.filter (similarLength name))
  refine ⟨hsimilar, fun h => hsimilar.of_filter ?_⟩
  intro c hc hnear
  exact similarLength_of_near hnear (h c hc hnear)

/-- `lex` is one edit away, but has four bytes less than the name, so a candidate three edits away
is the answer. -/
theorem closest?_passes_nearest :
    let name := "lex😀"
    closest? name Command.names = some "help" ∧ Away name "help" 3 ∧ "lex" ∈ Command.names ∧
      Away name "lex" 1 ∧ ¬ Nearest name Command.names (closest? name Command.names) := by
  intro name
  have hanswer : closest? name Command.names = some "help" := by decide +kernel
  have hhelp : Away name "help" 3 := away_iff.mpr (by decide +kernel)
  have hlex : Away name "lex" 1 := away_iff.mpr (by decide +kernel)
  have hmem : "lex" ∈ Command.names := by decide
  refine ⟨hanswer, hhelp, hmem, hlex, ?_⟩
  intro h
  obtain ⟨before, after, hnames, n, -, haway, hbefore, hafter⟩ := h.first "help" hanswer
  have hn : n = 3 := haway.unique hhelp
  rw [hnames] at hmem
  rcases List.mem_append.mp hmem with hmem | hmem
  · have hlt := hbefore "lex" hmem 1 hlex
    omega
  · rcases List.mem_cons.mp hmem with heq | hmem
    · exact absurd heq (by decide)
    · have hle := hafter "lex" hmem 1 hlex
      omega

end LamScope.Suggest
