import LamScope.Scope.Resolution

/-!
# Walks with a listener

A resolver keeps nothing of what it finds out. It tells a listener of every event when it happens,
and the listener keeps what it likes.
-/
namespace LamScope

/-- What became of a listener and of the surroundings. -/
structure Told (τ : Type) where
  heard : τ
  state : Surroundings
  stopped : Option TooDeep

/-- A walk before a listener, which has states `τ`. -/
def Telling (τ : Type) := (hear : τ → Event → τ) → τ → Surroundings → Told τ

namespace Telling
variable {τ : Type}

/-- A single step, of whose events the listener is told at once. -/
def step (a : Walk) : Telling τ := fun hear t s =>
  let v := a s
  ⟨v.trace.foldl hear t, v.state, v.stopped⟩

def andThen (a b : Telling τ) : Telling τ := fun hear t s =>
  let v := a hear t s
  match v.stopped with
  | some _ => v
  | none => b hear v.heard v.state

def inFrame (body : Telling τ) : Telling τ := fun hear t s =>
  let v := body hear t { s with scopes := s.scopes.enter }
  let (unused, scopes) := v.state.scopes.leave
  let heard := match v.stopped with
    | none => unused.foldl (fun t w => hear t (.report (.of (.unused w.text) w))) v.heard
    | some _ => v.heard
  ⟨heard, { v.state with scopes }, v.stopped⟩

def inCallable (kind : Enclosure) (body : Telling τ) : Telling τ := fun hear t s =>
  let v := body hear t { s with enclosure := kind }
  { v with state := { v.state with enclosure := s.enclosure } }

def descend (limit : Nat) (span : Span) (body : Telling τ) : Telling τ := fun hear t s =>
  if limit ≤ s.depth then step (Walk.stop limit span) hear t s
  else
    let v := body hear t { s with depth := s.depth + 1 }
    { v with state := { v.state with depth := v.state.depth - 1 } }

instance : Walking (Telling τ) where
  append := andThen
  step := step
  inFrame := inFrame
  inCallable := inCallable
  descend := descend

end Telling

end LamScope
