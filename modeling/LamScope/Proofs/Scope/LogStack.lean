import LamScope.Proofs.Scope.Log

/-!
# Stacks of logs

A stack of scopes holds what a stack of logs says, one log for each frame. Changes go to the log of
the innermost scope; all that a stack of scopes answers can be read off the logs.
-/
namespace LamScope

/-- Appends to the innermost log, if there is one. -/
def extend (around : List Log) (log : Log) : List Log :=
  match around with
  | [] => []
  | innermost :: outer => (innermost ++ log) :: outer

@[simp] theorem extend_nil_log (around : List Log) : extend around [] = around := by
  cases around <;> simp [extend]

theorem extend_append (around : List Log) (log log' : Log) :
    extend around (log ++ log') = extend (extend around log) log' := by
  cases around <;> simp [extend]

/-- What declares nothing does not change how far out a name is declared. -/
theorem findIdx?_extend (around : List Log) (log : Log) (x : String) (h : log.declares x = false) :
    (extend around log).findIdx? (·.declares x) = around.findIdx? (·.declares x) := by
  cases around with
  | nil => rfl
  | cons innermost outer => simp [extend, List.findIdx?_cons, Log.declares_append, h]

namespace ScopeStack

/-- The frames are those of the logs. -/
def OfLogs (s : ScopeStack) (around : List Log) : Prop := s.frames = around.map Log.frame

variable {s : ScopeStack} {around : List Log}

theorem ofLogs_empty : empty.OfLogs [] := rfl

theorem OfLogs.enter (h : s.OfLogs around) : s.enter.OfLogs ([] :: around) :=
  congrArg (List.cons []) h

theorem OfLogs.leave {log : Log} (h : s.OfLogs (log :: around)) :
    s.leave.1 = log.unused ∧ s.leave.2.OfLogs around := by
  unfold OfLogs at h
  rw [List.map_cons] at h
  simp [ScopeStack.leave, h, Log.unused_frame, OfLogs]

theorem OfLogs.onInnermost (h : s.OfLogs around) (u : Update) :
    (s.onInnermost u.apply).OfLogs (extend around [u]) := by
  unfold OfLogs at h ⊢
  unfold ScopeStack.onInnermost
  cases around with
  | nil => simp [h, extend]
  | cons innermost outer => simp [h, extend, Log.frame_concat]

theorem OfLogs.innermost? (h : s.OfLogs around) (x : String) :
    s.innermost? x = around.head?.bind (·.binding? x) := by
  unfold OfLogs at h
  unfold ScopeStack.innermost?
  rw [h, List.head?_map, Option.bind_map]
  show (around.head?.bind fun log => log.frame.find? x) = _
  simp only [Log.find?_frame]

theorem OfLogs.outer? (h : s.OfLogs around) (x : String) :
    s.outer? x = around.tail.findSome? (·.binding? x) := by
  unfold OfLogs at h
  unfold ScopeStack.outer?
  rw [h, ← List.map_tail, List.findSome?_map]
  simp [Function.comp_def, Log.find?_frame]

theorem OfLogs.distance? (h : s.OfLogs around) (x : String) :
    s.distance? x = around.findIdx? (·.declares x) := by
  unfold OfLogs at h
  unfold ScopeStack.distance?
  rw [h, List.findIdx?_map]
  simp [Function.comp_def, Log.find?_frame, Log.binding?, Log.last?_isSome]

theorem OfLogs.declare (h : s.OfLogs around) (w : Word) :
    (s.declare w).1 = around.head?.bind (·.binding? w.text) ∧
      (s.declare w).2.OfLogs (extend around [.declared w]) :=
  ⟨h.innermost? w.text, h.onInnermost (.declared w)⟩

theorem OfLogs.define (h : s.OfLogs around) (x : String) :
    (s.define x).OfLogs (extend around [.defined x]) := h.onInnermost (.defined x)

theorem OfLogs.markUsed (h : s.OfLogs around) (x : String) :
    (s.markUsed x).2.OfLogs (extend around [.used x]) := h.onInnermost (.used x)

end ScopeStack

end LamScope
