import LamScope.Scope.Finding
import LamScope.Scope.Stack

/-!
# Walks

A walk visits part of a program from given surroundings. It emits events, leaves new
surroundings, and may stop early. `a ++ b` walks `a` and then `b`, unless `a` stopped.
-/
namespace LamScope

/-- The innermost callable around a place. -/
inductive Enclosure where
  | topLevel
  | function
  | method
deriving DecidableEq, Repr

def Enclosure.allowsReturn (e : Enclosure) : Bool := e != .topLevel

inductive Event where
  /-- The variable at a node is declared so many frames out. -/
  | record (id distance : Nat)
  | report (f : Finding)
deriving DecidableEq, Repr

namespace Event

def record? : Event → Option (Nat × Nat)
  | record id distance => some (id, distance)
  | report _ => none

def finding? : Event → Option Finding
  | record .. => none
  | report f => some f

end Event

structure Surroundings where
  scopes : ScopeStack
  enclosure : Enclosure
  /-- The line of the last declaration, variable or `return` seen. -/
  line : Nat
  /-- How many expressions and statements the walk is in. -/
  depth : Nat
deriving DecidableEq, Repr

def Surroundings.start : Surroundings := ⟨.empty, .topLevel, 1, 0⟩

/-- What a walk did. -/
structure Visit where
  trace : List Event
  state : Surroundings
  stopped : Option TooDeep
deriving DecidableEq, Repr

namespace Visit

def records (v : Visit) : List (Nat × Nat) := v.trace.filterMap Event.record?

def findings (v : Visit) : List Finding := v.trace.filterMap Event.finding?

end Visit

def Walk := Surroundings → Visit

namespace Walk

def skip : Walk := fun s => ⟨[], s, none⟩

def andThen (a b : Walk) : Walk := fun s =>
  let v := a s
  match v.stopped with
  | some _ => v
  | none =>
      let w := b v.state
      ⟨v.trace ++ w.trace, w.state, w.stopped⟩

instance : Append Walk := ⟨andThen⟩

theorem append_def (a b : Walk) : a ++ b = andThen a b := rfl

theorem append_of_stopped {a : Walk} {s : Surroundings} {t : TooDeep}
    (h : (a s).stopped = some t) (b : Walk) : (a ++ b) s = a s := by
  simp [append_def, andThen, h]

theorem append_of_completed {a : Walk} {s : Surroundings} (h : (a s).stopped = none) (b : Walk) :
    (a ++ b) s = ⟨(a s).trace ++ (b (a s).state).trace, (b (a s).state).state,
      (b (a s).state).stopped⟩ := by
  simp [append_def, andThen, h]

/-- Only changes the surroundings. -/
def change (f : Surroundings → Surroundings) : Walk := fun s => ⟨[], f s, none⟩

/-- Emits what the surroundings call for. -/
def emit (events : Surroundings → List Event) : Walk := fun s => ⟨events s, s, none⟩

def stop (limit : Nat) (span : Span) : Walk := fun s => ⟨[], s, some ⟨s.line, span, limit⟩⟩

/-- Walks one level deeper, unless that is more than the limit allows. The level is left in any
case. -/
def descend (limit : Nat) (span : Span) (body : Walk) : Walk := fun s =>
  if limit ≤ s.depth then stop limit span s
  else
    let v := body { s with depth := s.depth + 1 }
    { v with state := { v.state with depth := v.state.depth - 1 } }

def atLine (n : Nat) : Walk := change fun s => { s with line := n }

/-- Walks in a frame of its own, which is closed in any case. Its unused names are reported only
if all of it was seen. -/
def inFrame (body : Walk) : Walk := fun s =>
  let v := body { s with scopes := s.scopes.enter }
  let (unused, scopes) := v.state.scopes.leave
  let reports := match v.stopped with
    | none => unused.map fun w => .report (.of (.unused w.text) w)
    | some _ => []
  ⟨v.trace ++ reports, { v.state with scopes }, v.stopped⟩

/-- Walks as the body of a callable; afterwards the surroundings are what they were. -/
def inCallable (kind : Enclosure) (body : Walk) : Walk := fun s =>
  let v := body { s with enclosure := kind }
  { v with state := { v.state with enclosure := s.enclosure } }

/-- A name that its frame already has is reported, and its new declaration counts from here. -/
def declare (w : Word) : Walk :=
  atLine w.line
    ++ emit (fun s => ((s.scopes.declare w).1.map fun previous =>
        .report (.of (.duplicate w.text previous.span) w)).toList)
    ++ change fun s => { s with scopes := (s.scopes.declare w).2 }

def define (w : Word) : Walk := change fun s => { s with scopes := s.scopes.define w.text }

/-- Records how far out a name is declared, if it is local. -/
def recordName (id : Nat) (w : Word) : Walk :=
  emit fun s => ((s.scopes.distance? w.text).map (Event.record id)).toList

/-- Reports a read of a name whose initialiser is not over. -/
def checkDefined (w : Word) : Walk := emit fun s =>
  match s.scopes.innermost? w.text with
  | some b =>
      if b.defined then []
      else [.report (.of (.selfReference w.text ((s.scopes.outer? w.text).map (·.span))) w)]
  | none => []

def readName (id : Nat) (w : Word) : Walk :=
  atLine w.line ++ checkDefined w
    ++ change (fun s => { s with scopes := (s.scopes.markUsed w.text).2 })
    ++ recordName id w

def checkReturn (keyword : Word) : Walk :=
  atLine keyword.line ++ emit fun s =>
    if s.enclosure.allowsReturn then [] else [.report (.of .strayReturn keyword)]

end Walk

/-- What the walk over a program is put together in: single steps, walks after one another, in a
frame, as the body of a callable and one level deeper. -/
class Walking (W : Type) extends Append W where
  step : Walk → W
  inFrame : W → W
  inCallable : Enclosure → W → W
  descend : (limit : Nat) → Span → W → W

instance : Walking Walk where
  step a := a
  inFrame := Walk.inFrame
  inCallable := Walk.inCallable
  descend := Walk.descend

@[simp]
theorem Walking.step_walk (a : Walk) : (step a : Walk) = a := rfl

end LamScope
