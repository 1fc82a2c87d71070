import LamScope.Analysis
import LamScope.Scope.Telling

/-!
# Execution

An evaluator is told the distance of every local variable while the program is walked. It gets the
program only behind all of them, and only if the analysis lets it run.
-/
namespace LamScope

/-- Something that runs programs, with states `σ` and failures `ε`. -/
structure Evaluator (σ ε : Type) where
  record : (id distance : Nat) → σ → σ
  interpret : List Stmt → σ → Option ε × σ

inductive Execution (ε : Type) where
  | skipped
  | completed
  | failed (error : ε)
deriving DecidableEq, Repr

namespace Evaluator

variable {σ ε : Type}

/-- An evaluator that listens to a walk is told the distances. The events are kept beside. -/
def hear (e : Evaluator σ ε) : σ × List Event → Event → σ × List Event
  | (s, trace), .record id distance => (e.record id distance s, trace ++ [.record id distance])
  | (s, trace), .report f => (s, trace ++ [.report f])

/-- Analyses a source text before an evaluator. -/
def analyse (e : Evaluator σ ε) (policy : Policy) (source : String) (s : σ) : Analysis × σ :=
  let scan := Scan.ofSource source
  let program := Program.ofTokens scan.tokens
  if scan.isClean && program.isClean then
    let walk : Telling (σ × List Event) := Walking.program policy.limit program.statements
    let ⟨(ready, trace), state, stopped⟩ := walk e.hear (s, []) .start
    (.ofVisit policy scan program ⟨trace, state, stopped⟩, ready)
  else (.ofFaults scan program, s)

/-- Analyses a source text and runs it if it may run. -/
def run (e : Evaluator σ ε) (policy : Policy) (source : String) (s : σ) :
    Analysis × Execution ε × σ :=
  let (analysis, ready) := e.analyse policy source s
  if analysis.mayExecute then
    match e.interpret analysis.program ready with
    | (none, done) => (analysis, .completed, done)
    | (some error, done) => (analysis, .failed error, done)
  else (analysis, .skipped, ready)

end Evaluator

end LamScope
