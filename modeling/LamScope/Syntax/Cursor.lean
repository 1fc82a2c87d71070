import LamScope.Syntax.Fault
import LamScope.Syntax.Tree

/-!
# Reading tokens

A cursor stands between the tokens already taken and those still to come, all of them before the
first end-of-file token, which is kept apart and never passed. It also carries the faults noted
so far, the next free node number and the depth of nesting. A parser moves a cursor and gives a
value or a fault; a parser that fails keeps what it took and what it noted.
-/
namespace LamScope

structure Cursor where
  /-- The token taken last. -/
  previous : Token
  upcoming : List Token
  /-- Stands wherever no token is left. -/
  finish : Token
  faults : List SyntaxFault
  nextId : Nat
  /-- How many constructs that count as a level of nesting are being read. -/
  depth : Nat

namespace Cursor

/-- Only the tokens before the first end-of-file token count. Without such a token the list ends
where its last token does. -/
def ofTokens (tokens : List Token) : Cursor :=
  let isEnd := fun (t : Token) => t.kind == .endOfFile
  let finish := match tokens.find? isEnd, tokens.getLast? with
    | some t, _ => t
    | none, some t => ⟨⟨"", t.line, ⟨t.span.stop, t.span.stop⟩⟩, .endOfFile⟩
    | none, none => ⟨⟨"", 1, ⟨0, 0⟩⟩, .endOfFile⟩
  { previous := tokens.head?.getD finish
    upcoming := tokens.takeWhile fun t => !isEnd t
    finish := finish
    faults := []
    nextId := 0
    depth := 0 }

def current (c : Cursor) : Token := c.upcoming.head?.getD c.finish

def atEnd (c : Cursor) : Bool := c.upcoming.isEmpty

/-- The next token is the symbol `s`. -/
def isAt (c : Cursor) (s : Symbol) : Bool := c.current.kind == .symbol s

/-- Takes a token if one is left. -/
def advance (c : Cursor) : Cursor :=
  match c.upcoming with
  | [] => c
  | t :: ts => { c with previous := t, upcoming := ts }

def note (c : Cursor) (f : SyntaxFault) : Cursor := { c with faults := c.faults ++ [f] }

/-- The same place at another depth. -/
def atDepth (d : Nat) (c : Cursor) : Cursor := { c with depth := d }

end Cursor

/-- What a parser gives, and where it stops. -/
inductive Reply (α : Type) where
  | ok (value : α) (next : Cursor)
  | failed (fault : SyntaxFault) (next : Cursor)

namespace Reply
variable {α : Type}

/-- Where a parser stops. -/
def next : Reply α → Cursor
  | ok _ next => next
  | failed _ next => next

/-- The same reply at another depth. -/
def atDepth (d : Nat) : Reply α → Reply α
  | ok a next => ok a (next.atDepth d)
  | failed fault next => failed fault (next.atDepth d)

end Reply

def Parser (α : Type) := Cursor → Reply α

namespace Parser

variable {α β : Type}

instance : Monad Parser where
  pure a := fun c => .ok a c
  bind p f := fun c =>
    match p c with
    | .ok a next => f a next
    | .failed fault next => .failed fault next

theorem pure_apply (a : α) (c : Cursor) : (pure a : Parser α) c = .ok a c := rfl

theorem bind_apply (p : Parser α) (f : α → Parser β) (c : Cursor) :
    (p >>= f) c = match p c with
      | .ok a next => f a next
      | .failed fault next => .failed fault next := rfl

def fail (f : SyntaxFault) : Parser α := fun c => .failed f c

/-- Notes a fault and goes on. -/
def note (f : SyntaxFault) : Parser Unit := fun c => .ok () (c.note f)

/-- The next token, which is not taken. -/
def peek : Parser Token := fun c => .ok c.current c

def take : Parser Unit := fun c => .ok () c.advance

/-- Takes the symbol if it is next. -/
def accept (s : Symbol) : Parser Bool := fun c =>
  if c.isAt s then .ok true c.advance else .ok false c

def expect (s : Symbol) : Parser Unit := fun c =>
  if c.isAt s then .ok () c.advance else .failed (.expected (.symbol s) c.current) c

def expectName : Parser Word := fun c =>
  if c.current.kind = .name then .ok c.current.toWord c.advance
  else .failed (.expected .name c.current) c

def freshId : Parser Nat := fun c => .ok c.nextId { c with nextId := c.nextId + 1 }

/-- A node for everything from offset `start` to the token taken last. -/
def closeNode (start : Nat) : Parser Node := do
  let id ← freshId
  fun c => .ok ⟨id, ⟨start, c.previous.span.stop⟩⟩ c

/-- A node with a given span. -/
def nodeAt (span : Span) : Parser Node := do
  let id ← freshId
  return ⟨id, span⟩

/-- At most as many items as `bound` has elements, until `stop` holds or no token is left. -/
def manyWithin (stop : Cursor → Bool) (item : Parser α) : List Token → Parser (List α)
  | [], c => .ok [] c
  | _ :: bound, c =>
      if stop c || c.atEnd then .ok [] c
      else
        match item c with
        | .failed fault next => .failed fault next
        | .ok a next =>
            match manyWithin stop item bound next with
            | .failed fault last => .failed fault last
            | .ok as last => .ok (a :: as) last

/-- Items one after the other until `stop` holds or no token is left. Every item takes a token, so
the tokens to come bound the repetition. -/
def many (stop : Cursor → Bool) (item : Parser α) : Parser (List α) := fun c =>
  manyWithin stop item c.upcoming c

/-- At most as many commas as `bound` has elements, each followed by an item; the first of them
has the number `i`. -/
def commaItemsWithin (item : Nat → Parser α) : List Token → Nat → Parser (List α)
  | [], _, c => .ok [] c
  | _ :: bound, i, c =>
      if c.isAt .comma then
        match item i c.advance with
        | .failed fault next => .failed fault next
        | .ok a next =>
            match commaItemsWithin item bound (i + 1) next with
            | .failed fault last => .failed fault last
            | .ok as last => .ok (a :: as) last
      else .ok [] c

/-- One or more items with commas between them, numbered from zero. -/
def commaList (item : Nat → Parser α) : Parser (List α) := do
  let first ← item 0
  let others ← fun c => commaItemsWithin item c.upcoming 1 c
  return first :: others

end Parser

end LamScope
