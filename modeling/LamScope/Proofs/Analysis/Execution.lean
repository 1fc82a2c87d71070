import LamScope.Execution
import LamScope.Proofs.Analysis.Permission
import LamScope.Proofs.Scope.Telling

/-!
# What an evaluator is asked to do

An evaluator that listens to an analysis hears in order what is recorded in it. It can be made to
keep a log of what it is asked to do, and does then what it does without. Main statement: the log
holds what was recorded in the analysis, in order, and behind that the program if it may run; and
how the permission to run depends on the gate and the limit.
-/
namespace LamScope

/-- One thing that an evaluator is asked to do. -/
inductive Request where
  | record (id distance : Nat)
  | interpret (program : List Stmt)

def Request.record? : Request → Option (Nat × Nat)
  | record id distance => some (id, distance)
  | interpret _ => none

/-- All that an evaluator is asked to do with an analysed text, in order. -/
def Analysis.requests (a : Analysis) : List Request :=
  a.records.map (fun r => .record r.1 r.2) ++ if a.mayExecute then [.interpret a.program] else []

theorem Analysis.filterMap_requests (a : Analysis) :
    a.requests.filterMap Request.record? = a.records := by
  have hprogram :
      (if a.mayExecute then [Request.interpret a.program] else []).filterMap Request.record? =
        [] := by
    split <;> rfl
  rw [requests, List.filterMap_append, hprogram, List.append_nil, List.filterMap_map]
  exact List.filterMap_some

namespace Evaluator
variable {σ ε : Type}

/-- The evaluator that does what `e` does and adds everything it is asked to do to a log. -/
def logged (e : Evaluator σ ε) : Evaluator (σ × List Request) ε where
  record id distance s := (e.record id distance s.1, s.2 ++ [.record id distance])
  interpret program s :=
    ((e.interpret program s.1).1, (e.interpret program s.1).2, s.2 ++ [.interpret program])

/-- Tells the evaluator what was recorded, in order. -/
def recordAll (e : Evaluator σ ε) (records : List (Nat × Nat)) (s : σ) : σ :=
  records.foldl (fun s r => e.record r.1 r.2 s) s

theorem recordAll_logged (e : Evaluator σ ε) (records : List (Nat × Nat)) (s : σ)
    (log : List Request) :
    e.logged.recordAll records (s, log) =
      (e.recordAll records s, log ++ records.map fun r => .record r.1 r.2) := by
  unfold recordAll
  induction records generalizing s log with
  | nil => rw [List.map_nil, List.append_nil]; rfl
  | cons r records ih =>
      rw [List.foldl_cons, List.foldl_cons, List.map_cons, List.append_cons]
      exact ih (e.record r.1 r.2 s) (log ++ [.record r.1 r.2])

/-- An evaluator that hears of events is told of the distances among them. -/
theorem foldl_hear (e : Evaluator σ ε) (events : List Event) (s : σ) (trace : List Event) :
    events.foldl e.hear (s, trace) =
      (e.recordAll (events.filterMap Event.record?) s, trace ++ events) := by
  induction events generalizing s trace with
  | nil =>
      rw [List.append_nil]
      rfl
  | cons event events ih =>
      rw [List.foldl_cons, List.append_cons]
      cases event with
      | record id distance => exact ih (e.record id distance s) _
      | report f => exact ih s _

/-- To analyse a text before an evaluator is to analyse it and then to tell what was recorded. -/
theorem analyse_eq (e : Evaluator σ ε) (policy : Policy) (source : String) (s : σ) :
    e.analyse policy source s = (.ofSource policy source,
      e.recordAll (Analysis.ofSource policy source).records s) := by
  unfold analyse Analysis.ofSource
  dsimp only
  split
  · rw [Resolver.program_toldBy _ _ e.hear (s, []) .start, foldl_hear]
    rfl
  · rfl

theorem analysis_run (e : Evaluator σ ε) (policy : Policy) (source : String) (s : σ) :
    (e.run policy source s).1 = .ofSource policy source := by
  unfold run
  rw [analyse_eq]
  dsimp only
  split
  · split <;> rfl
  · rfl

theorem skipped_run_iff (e : Evaluator σ ε) (policy : Policy) (source : String) (s : σ) :
    (e.run policy source s).2.1 = .skipped ↔
      (Analysis.ofSource policy source).mayExecute = false := by
  unfold run
  rw [analyse_eq]
  dsimp only
  split
  · rename_i h
    split <;> simp [h]
  · rename_i h
    simpa using h

/-- Keeping a log changes nothing, and it grows by all that the analysis asks for. -/
theorem run_logged (e : Evaluator σ ε) (policy : Policy) (source : String) (s : σ)
    (log : List Request) :
    e.logged.run policy source (s, log) =
      ((e.run policy source s).1, (e.run policy source s).2.1, (e.run policy source s).2.2,
        log ++ (Analysis.ofSource policy source).requests) := by
  unfold run Analysis.requests
  rw [analyse_eq, analyse_eq, recordAll_logged]
  dsimp only
  by_cases hmay : (Analysis.ofSource policy source).mayExecute = true
  · rw [if_pos hmay, if_pos hmay, if_pos hmay, ← List.append_assoc]
    dsimp only [logged]
    obtain ⟨failure, done⟩ := e.interpret (Analysis.ofSource policy source).program
      (e.recordAll (Analysis.ofSource policy source).records s)
    cases failure <;> rfl
  · rw [if_neg hmay, if_neg hmay, if_neg hmay, List.append_nil]

/-- An evaluator is asked for what the analysis calls for and for nothing else, and whether the
program may run is up to the gate and the limit as far as the analysis leaves it open. -/
structure Serves (e : Evaluator σ ε) (gate : Gate) (limit : Nat) (source : String) (s : σ)
    (log : List Request) (a : Analysis) : Prop where
  analysis : (e.run ⟨gate, limit⟩ source s).1 = a
  /-- Whatever the evaluator does, it is asked for each record in order and then for the program,
  once, if that may run. -/
  asked : e.logged.run ⟨gate, limit⟩ source (s, log) =
    ((e.run ⟨gate, limit⟩ source s).1, (e.run ⟨gate, limit⟩ source s).2.1,
      (e.run ⟨gate, limit⟩ source s).2.2, log ++ a.requests)
  /-- The records asked for make up the table of the analysis. -/
  collected : Locals.ofRecords (a.requests.filterMap Request.record?) = a.locals
  skipped : (e.run ⟨gate, limit⟩ source s).2.1 = .skipped ↔ a.mayExecute = false
  unrecorded : a.scanFaults ≠ [] ∨ a.syntaxFaults ≠ [] → a.records = []
  alike : ∀ other, Analysis.ofSource ⟨other, limit⟩ source =
    { a with mayExecute := (Analysis.ofSource ⟨other, limit⟩ source).mayExecute }
  monotone : ∀ lax higher, Gate.strictness lax ≤ gate.strictness → limit ≤ higher →
    a.mayExecute = true → (Analysis.ofSource ⟨lax, higher⟩ source).mayExecute = true
  blocked : a.scanFaults ≠ [] ∨ a.syntaxFaults ≠ [] ∨ a.aborted ≠ none →
    ∀ other, (Analysis.ofSource ⟨other, limit⟩ source).mayExecute = false

theorem serves_run (e : Evaluator σ ε) (gate : Gate) (limit : Nat) (source : String) (s : σ)
    (log : List Request) :
    e.Serves gate limit source s log (.ofSource ⟨gate, limit⟩ source) := by
  constructor
  · exact e.analysis_run ⟨gate, limit⟩ source s
  · exact e.run_logged ⟨gate, limit⟩ source s log
  · rw [Analysis.filterMap_requests]
    rfl
  · exact e.skipped_run_iff ⟨gate, limit⟩ source s
  · intro hfaults
    exact (Analysis.ofSource_of_faults hfaults).1
  · intro other
    exact Analysis.ofSource_gate gate other limit source
  · intro lax higher hgate hlimit hmay
    exact Analysis.mayExecute_mono hgate hlimit hmay
  · intro hblocked other
    rw [Bool.eq_false_iff]
    intro hmay
    obtain ⟨hscan, hread, hcompleted, -⟩ := Analysis.mayExecute_iff.mp hmay
    rw [Analysis.ofSource_gate gate] at hscan hread hcompleted
    rcases hblocked with h | h | h
    · exact h hscan
    · exact h hread
    · exact h hcompleted

end Evaluator

end LamScope
