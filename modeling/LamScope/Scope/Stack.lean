import LamScope.Token

/-!
# Stacks of scopes

A frame holds the bindings of one block or body in the order in which their names were first
declared. The stack holds the frames around one place of a program, the innermost first. Globals
are never tracked: at top level the stack is empty, and there every change does nothing.
-/
namespace LamScope

/-- What is known of one local declaration. -/
structure Binding where
  /-- The initialiser is over. -/
  defined : Bool
  /-- Read at least once. -/
  used : Bool
  line : Nat
  span : Span
deriving DecidableEq, Repr

def Binding.declaredAt (w : Word) : Binding := ⟨false, false, w.line, w.span⟩

abbrev Frame := List (String × Binding)

namespace Frame

def find? (x : String) : Frame → Option Binding
  | [] => none
  | (y, b) :: rest => if y = x then some b else find? x rest

/-- A name that is already there keeps its position. -/
def put (x : String) (b : Binding) : Frame → Frame
  | [] => [(x, b)]
  | (y, old) :: rest => if y = x then (x, b) :: rest else (y, old) :: put x b rest

/-- Changes the binding of a name, if there is one. -/
def adjust (x : String) (change : Binding → Binding) : Frame → Frame
  | [] => []
  | (y, b) :: rest => if y = x then (y, change b) :: rest else (y, b) :: adjust x change rest

def unused (f : Frame) : List Word :=
  f.filterMap fun (x, b) => if b.used then none else some ⟨x, b.line, b.span⟩

theorem find?_put (x y : String) (b : Binding) (f : Frame) :
    find? y (put x b f) = if y = x then some b else find? y f := by
  induction f with
  | nil => simp [put, find?, eq_comm]
  | cons e rest ih =>
    obtain ⟨z, old⟩ := e
    by_cases hz : z = x <;> by_cases hy : y = x <;> grind [put, find?]

theorem find?_adjust (x y : String) (change : Binding → Binding) (f : Frame) :
    find? y (adjust x change f) = if y = x then (find? y f).map change else find? y f := by
  induction f with
  | nil => simp [adjust, find?]
  | cons e rest ih =>
    obtain ⟨z, old⟩ := e
    by_cases hz : z = x <;> by_cases hy : y = x <;> grind [adjust, find?]

end Frame

structure ScopeStack where
  /-- The innermost frame comes first. -/
  frames : List Frame
deriving DecidableEq, Repr

namespace ScopeStack

def empty : ScopeStack := ⟨[]⟩

def depth (s : ScopeStack) : Nat := s.frames.length

def isGlobal (s : ScopeStack) : Bool := s.frames.isEmpty

/-- Opens a frame. -/
def enter (s : ScopeStack) : ScopeStack := ⟨[] :: s.frames⟩

/-- Closes the innermost frame and gives its unused names. -/
def leave (s : ScopeStack) : List Word × ScopeStack :=
  match s.frames with
  | [] => ([], s)
  | f :: rest => (f.unused, ⟨rest⟩)

/-- Changes the innermost frame. -/
def onInnermost (change : Frame → Frame) (s : ScopeStack) : ScopeStack :=
  match s.frames with
  | [] => s
  | f :: rest => ⟨change f :: rest⟩

def innermost? (s : ScopeStack) (x : String) : Option Binding :=
  s.frames.head?.bind (Frame.find? x)

/-- The nearest declaration outside the innermost frame. -/
def outer? (s : ScopeStack) (x : String) : Option Binding :=
  s.frames.tail.findSome? (Frame.find? x)

/-- Declares a name in the innermost frame and gives the declaration that this replaces. -/
def declare (s : ScopeStack) (w : Word) : Option Binding × ScopeStack :=
  (s.innermost? w.text, s.onInnermost (Frame.put w.text (.declaredAt w)))

/-- From here on the name may be read. -/
def define (s : ScopeStack) (x : String) : ScopeStack :=
  s.onInnermost (Frame.adjust x fun b => { b with defined := true })

/-- Only the innermost frame is marked: a local that is read from inner blocks alone counts as
unused. Says whether that frame declares the name. -/
def markUsed (s : ScopeStack) (x : String) : Bool × ScopeStack :=
  ((s.innermost? x).isSome, s.onInnermost (Frame.adjust x fun b => { b with used := true }))

/-- How many frames lie between the innermost one and the nearest that declares the name. A name
that none declares is global. -/
def distance? (s : ScopeStack) (x : String) : Option Nat :=
  s.frames.findIdx? fun f => (f.find? x).isSome

end ScopeStack

end LamScope
