import LamScope.Proofs.Scope.LogStack

/-!
# Histories of a stack of scopes

A stack of scopes is changed and asked about names in any order. Main statement: from an empty
stack on, every answer is the one that can be read off a stack of logs, which only ever grow at
their ends; and no request changes a frame around the innermost one.
-/
namespace LamScope

namespace ScopeStack

/-- What a stack of scopes is asked to do or to say. -/
inductive Request where
  | enter
  | leave
  | declare (w : Word)
  | define (x : String)
  | markUsed (x : String)
  | distance (x : String)
  | innermost (x : String)
  | outer (x : String)
  | depth
  | isGlobal
deriving DecidableEq, Repr

inductive Answer where
  | done
  | unused (ws : List Word)
  /-- The declaration that a new one took the place of. -/
  | replaced (b : Option Binding)
  | marked (found : Bool)
  | distance (d : Option Nat)
  | binding (b : Option Binding)
  | depth (n : Nat)
  | isGlobal (b : Bool)
deriving DecidableEq, Repr

def respond (s : ScopeStack) : Request → Answer × ScopeStack
  | .enter => (.done, s.enter)
  | .leave => (.unused s.leave.1, s.leave.2)
  | .declare w => (.replaced (s.declare w).1, (s.declare w).2)
  | .define x => (.done, s.define x)
  | .markUsed x => (.marked (s.markUsed x).1, (s.markUsed x).2)
  | .distance x => (.distance (s.distance? x), s)
  | .innermost x => (.binding (s.innermost? x), s)
  | .outer x => (.binding (s.outer? x), s)
  | .depth => (.depth s.depth, s)
  | .isGlobal => (.isGlobal s.isGlobal, s)

end ScopeStack

/-- One log for each open scope, that of the innermost first. -/
abbrev History := List Log

open ScopeStack (Request Answer)

namespace History

/-- A new scope has an empty log, a scope that is left takes its log along, and changes go to the
end of the innermost log, if there is one. -/
def respond (logs : History) : Request → Answer × History
  | .enter => (.done, [] :: logs)
  | .leave => (.unused (logs.head?.elim [] Log.unused), logs.tail)
  | .declare w =>
      (.replaced (logs.head?.bind (·.binding? w.text)), extend logs [.declared w])
  | .define x => (.done, extend logs [.defined x])
  | .markUsed x => (.marked (logs.head?.any (·.declares x)), extend logs [.used x])
  | .distance x => (.distance (logs.findIdx? (·.declares x)), logs)
  | .innermost x => (.binding (logs.head?.bind (·.binding? x)), logs)
  | .outer x => (.binding (logs.tail.findSome? (·.binding? x)), logs)
  | .depth => (.depth logs.length, logs)
  | .isGlobal => (.isGlobal logs.isEmpty, logs)

end History

/-- The answers to requests that are made one after the other. -/
def ScopeStack.answers {σ : Type} (respond : σ → Request → Answer × σ) :
    σ → List Request → List Answer
  | _, [] => []
  | s, r :: rs => (respond s r).1 :: answers respond (respond s r).2 rs

namespace ScopeStack
variable {s : ScopeStack} {logs : History}

theorem OfLogs.depth (h : s.OfLogs logs) : s.depth = logs.length := by
  unfold OfLogs at h
  rw [ScopeStack.depth, h, List.length_map]

theorem OfLogs.isGlobal (h : s.OfLogs logs) : s.isGlobal = logs.isEmpty := by
  unfold OfLogs at h
  rw [ScopeStack.isGlobal, h, List.isEmpty_map]

theorem OfLogs.marked (h : s.OfLogs logs) (x : String) :
    (s.markUsed x).1 = logs.head?.any (·.declares x) := by
  show (s.innermost? x).isSome = _
  rw [h.innermost? x]
  cases logs with
  | nil => rfl
  | cons innermost outer =>
      show ((innermost.last? x).map _).isSome = innermost.declares x
      rw [Option.isSome_map, Log.last?_isSome]

/-- One request is answered as the logs say, and the logs still say it afterwards. -/
theorem OfLogs.respond (h : s.OfLogs logs) (r : Request) :
    (s.respond r).1 = (logs.respond r).1 ∧ (s.respond r).2.OfLogs (logs.respond r).2 := by
  cases r with
  | enter => exact ⟨rfl, h.enter⟩
  | leave =>
      cases logs with
      | nil =>
          have hframes : s.frames = [] := h
          have hleave : s.leave = ([], s) := by rw [ScopeStack.leave, hframes]
          refine ⟨?_, ?_⟩
          · show Answer.unused s.leave.1 = .unused []
            rw [hleave]
          · show s.leave.2.OfLogs []
            rwa [hleave]
      | cons log logs => exact ⟨congrArg Answer.unused h.leave.1, h.leave.2⟩
  | declare w => exact ⟨congrArg Answer.replaced (h.declare w).1, (h.declare w).2⟩
  | define x => exact ⟨rfl, h.define x⟩
  | markUsed x => exact ⟨congrArg Answer.marked (h.marked x), h.markUsed x⟩
  | distance x => exact ⟨congrArg Answer.distance (h.distance? x), h⟩
  | innermost x => exact ⟨congrArg Answer.binding (h.innermost? x), h⟩
  | outer x => exact ⟨congrArg Answer.binding (h.outer? x), h⟩
  | depth => exact ⟨congrArg Answer.depth h.depth, h⟩
  | isGlobal => exact ⟨congrArg Answer.isGlobal h.isGlobal, h⟩

theorem OfLogs.answers (h : s.OfLogs logs) (rs : List Request) :
    answers ScopeStack.respond s rs = answers History.respond logs rs := by
  induction rs generalizing s logs with
  | nil => rfl
  | cons r rs ih =>
      obtain ⟨hanswer, hnext⟩ := h.respond r
      rw [ScopeStack.answers, ScopeStack.answers, hanswer, ih hnext]

theorem tail_suffix_onInnermost (s : ScopeStack) (change : Frame → Frame) :
    s.frames.tail <:+ (s.onInnermost change).frames := by
  unfold onInnermost
  split
  · exact List.tail_suffix s.frames
  · rename_i f rest hframes
    rw [hframes]
    exact List.suffix_cons _ _

/-- Frames around the innermost one stay as they are. -/
theorem tail_suffix_respond (s : ScopeStack) (r : Request) :
    s.frames.tail <:+ (s.respond r).2.frames := by
  cases r with
  | enter => exact (List.tail_suffix s.frames).trans (List.suffix_cons _ _)
  | leave =>
      show s.frames.tail <:+ s.leave.2.frames
      unfold ScopeStack.leave
      split
      · exact List.tail_suffix s.frames
      · rename_i f rest hframes
        rw [hframes]
        exact List.suffix_rfl
  | declare w => exact s.tail_suffix_onInnermost _
  | define x => exact s.tail_suffix_onInnermost _
  | markUsed x => exact s.tail_suffix_onInnermost _
  | distance | innermost | outer | depth | isGlobal => exact List.tail_suffix s.frames

/-- Whatever a stack of scopes was asked since it was empty, it answers as the logs of that
history say, and no request has an effect around the innermost frame. -/
theorem answers_respond (rs : List Request) :
    answers ScopeStack.respond .empty rs = answers History.respond [] rs ∧
      ∀ (s : ScopeStack) (r : Request), s.frames.tail <:+ (s.respond r).2.frames :=
  ⟨ofLogs_empty.answers rs, tail_suffix_respond⟩

/-- A redeclared name keeps its place among the unused ones, and was used only before. -/
example :
    let w (x : String) (line : Nat) : Word := ⟨x, line, ⟨line, line + 1⟩⟩
    answers ScopeStack.respond .empty
        [.define "a", .enter, .declare (w "a" 1), .declare (w "b" 2), .markUsed "a",
          .declare (w "a" 3), .enter, .markUsed "b", .distance "b", .leave, .leave] =
      [.done, .done, .replaced none, .replaced none, .marked true,
        .replaced (some ⟨false, true, 1, ⟨1, 2⟩⟩), .done, .marked false, .distance (some 1),
        .unused [], .unused [w "a" 3, w "b" 2]] := by
  decide

end ScopeStack

end LamScope
