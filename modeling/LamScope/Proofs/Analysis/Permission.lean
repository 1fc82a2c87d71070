import LamScope.Proofs.Analysis.Places
import LamScope.Proofs.Scope.Limits

/-!
# What a program needs to run

A program may run if its text has no faults, the walk over it completed and the gate permits its
findings. Main statements: all of an analysis but this permission is the same under every gate, and
all of it is the same with every higher limit once the walk completes, so what may run under a gate
and a limit may run under every laxer gate and every higher limit.
-/
namespace LamScope

namespace Gate

/-- Gates in order, the laxest first. -/
def strictness : Gate → Nat
  | always => 0
  | errors => 1
  | any => 2

/-- A laxer gate permits whatever a stricter one does. -/
theorem permits_mono {lax strict : Gate} (h : lax.strictness ≤ strict.strictness) {e w : Nat}
    (hpermits : strict.permits e w = true) : lax.permits e w = true := by
  cases lax with
  | always => rfl
  | errors =>
      cases strict with
      | always => simp [strictness] at h
      | errors => exact hpermits
      | any =>
          simp only [permits, Bool.and_eq_true] at hpermits
          exact hpermits.1
  | any =>
      cases strict with
      | always => simp [strictness] at h
      | errors => simp [strictness] at h
      | any => exact hpermits

end Gate

namespace Analysis
variable {policy : Policy} {gate gate' : Gate} {limit limit' : Nat} {source : String}

/-- Nothing is recorded or found in a text with faults. -/
theorem ofSource_of_faults
    (h : (ofSource policy source).scanFaults ≠ [] ∨ (ofSource policy source).syntaxFaults ≠ []) :
    (ofSource policy source).records = [] ∧ (ofSource policy source).findings = [] ∧
      (ofSource policy source).aborted = none ∧ (ofSource policy source).mayExecute = false := by
  rw [scanFaults_ofSource, syntaxFaults_ofSource] at h
  have hclean : ((Scan.ofSource source).isClean &&
      (Program.ofTokens (Scan.ofSource source).tokens).isClean) = false := by
    rw [Bool.and_eq_false_iff]
    simpa [Scan.isClean, Program.isClean, Program.ofSource] using h
  unfold ofSource
  dsimp only
  rw [hclean]
  exact ⟨rfl, rfl, rfl, rfl⟩

theorem ofSource_of_clean (hscan : (Scan.ofSource source).faults = [])
    (hread : (Program.ofSource source).faults = []) :
    ofSource policy source = ofVisit policy (Scan.ofSource source) (Program.ofSource source)
      (resolve policy.limit (Program.ofSource source).statements) := by
  unfold Program.ofSource at hread ⊢
  unfold ofSource
  simp [Scan.isClean, Program.isClean, hscan, hread]

theorem mayExecute_iff :
    (ofSource policy source).mayExecute = true ↔
      (ofSource policy source).scanFaults = [] ∧ (ofSource policy source).syntaxFaults = [] ∧
        (ofSource policy source).aborted = none ∧
        policy.gate.permits (errors (ofSource policy source).findings)
          (warnings (ofSource policy source).findings) = true := by
  by_cases hfaults :
      (ofSource policy source).scanFaults ≠ [] ∨ (ofSource policy source).syntaxFaults ≠ []
  · have hskipped := (ofSource_of_faults hfaults).2.2.2
    constructor
    · intro h
      rw [hskipped] at h
      cases h
    · rintro ⟨hscan, hread, -, -⟩
      rcases hfaults with h | h
      · exact absurd hscan h
      · exact absurd hread h
  · simp only [not_or, ne_eq, not_not, scanFaults_ofSource, syntaxFaults_ofSource] at hfaults
    obtain ⟨hscan, hread⟩ := hfaults
    rw [scanFaults_ofSource, syntaxFaults_ofSource, ofSource_of_clean hscan hread]
    simp [ofVisit, hscan, hread]

/-- The gate decides about the permission only. -/
theorem ofSource_gate (gate gate' : Gate) (limit : Nat) (source : String) :
    ofSource ⟨gate', limit⟩ source =
      { ofSource ⟨gate, limit⟩ source with
        mayExecute := (ofSource ⟨gate', limit⟩ source).mayExecute } := by
  unfold ofSource
  dsimp only
  split <;> rfl

/-- A higher limit changes nothing once the walk completes. -/
theorem ofSource_limit (h : limit ≤ limit')
    (hcompleted : (ofSource ⟨gate, limit⟩ source).aborted = none) :
    ofSource ⟨gate, limit'⟩ source = ofSource ⟨gate, limit⟩ source := by
  unfold ofSource at hcompleted ⊢
  dsimp only at hcompleted ⊢
  split at hcompleted
  · rename_i hclean
    have hcuts := Resolver.program_cuts
      (Program.ofTokens (Scan.ofSource source).tokens).statements h .start
    have hsame : resolve limit' (Program.ofTokens (Scan.ofSource source).tokens).statements =
        resolve limit (Program.ofTokens (Scan.ofSource source).tokens).statements :=
      hcuts.completed hcompleted
    rw [if_pos hclean, if_pos hclean, hsame]
    rfl
  · rename_i hclean
    rw [if_neg hclean, if_neg hclean]

theorem mayExecute_mono (hgate : gate'.strictness ≤ gate.strictness) (hlimit : limit ≤ limit')
    (h : (ofSource ⟨gate, limit⟩ source).mayExecute = true) :
    (ofSource ⟨gate', limit'⟩ source).mayExecute = true := by
  obtain ⟨hscan, hread, hcompleted, hpermits⟩ := mayExecute_iff.mp h
  have hsame : ofSource ⟨gate', limit'⟩ source = ofSource ⟨gate', limit⟩ source := by
    refine ofSource_limit hlimit ?_
    rw [ofSource_gate gate]
    exact hcompleted
  rw [hsame, mayExecute_iff, ofSource_gate gate gate']
  exact ⟨hscan, hread, hcompleted, Gate.permits_mono hgate hpermits⟩

end Analysis

end LamScope
