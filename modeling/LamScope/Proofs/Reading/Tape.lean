import LamScope.Syntax.Reading
import Mathlib.Data.PFun

/-!
# Reading by position

The grammar as it is read from the whole list of tokens, with nothing but a position in it. The
reader looks tokens up without asking whether the list has one there, and its loops go on until
they leave. A lookup outside the list gives no answer, and neither does a loop that never leaves.
-/
namespace LamScope

structure Tape where
  tokens : List Token
  /-- Where the next token stands. -/
  position : Nat
  faults : List SyntaxFault
  nextId : Nat

namespace Tape

/-- A list that does not end with an end-of-file token gets one. -/
def closed (tokens : List Token) : List Token :=
  match tokens.getLast? with
  | none => [⟨⟨"", 1, ⟨0, 0⟩⟩, .endOfFile⟩]
  | some t =>
      if t.kind = .endOfFile then tokens
      else tokens ++ [⟨⟨"", t.line, ⟨t.span.stop, t.span.stop⟩⟩, .endOfFile⟩]

def ofTokens (tokens : List Token) : Tape := ⟨closed tokens, 0, [], 0⟩

inductive Answer (α : Type) where
  | ok (value : α) (next : Tape)
  | failed (fault : SyntaxFault) (next : Tape)

def Answer.next {α : Type} : Answer α → Tape
  | .ok _ next => next
  | .failed _ next => next

def Reader (α : Type) := Tape → Part (Answer α)

/-- What a round of a loop asks for. -/
inductive Round (σ ρ : Type) where
  | again (state : σ)
  | leave (result : ρ)

namespace Reader
variable {α β σ ρ : Type}

instance : Monad Reader where
  pure a := fun t => .some (.ok a t)
  bind q f := fun t => (q t).bind fun
    | .ok a next => f a next
    | .failed fault next => .some (.failed fault next)

def fail (f : SyntaxFault) : Reader α := fun t => .some (.failed f t)

def note (f : SyntaxFault) : Reader Unit := fun t =>
  .some (.ok () { t with faults := t.faults ++ [f] })

/-- Goes on after a failure. -/
def attempt (q : Reader α) : Reader (Except SyntaxFault α) := fun t => (q t).map fun
  | .ok a next => .ok (.ok a) next
  | .failed fault next => .ok (.error fault) next

/-- How a loop stands after a round: it has its answer, or there is another round. -/
def standing : Answer (Round σ ρ) → Answer ρ ⊕ σ × Tape
  | .ok (.again s) next => .inr (s, next)
  | .ok (.leave r) next => .inl (.ok r next)
  | .failed fault next => .inl (.failed fault next)

/-- Round after round, for as long as they ask for another. -/
def loop (round : σ → Reader (Round σ ρ)) (s : σ) : Reader ρ := fun t =>
  PFun.fix (fun p => (round p.1 p.2).map standing) (s, t)

/-- The token with an index that depends on the position. -/
def tokenAt (index : Nat → Nat) : Reader Token := fun t =>
  (Part.ofOption t.tokens[index t.position]?).map fun token => .ok token t

def peek : Reader Token := tokenAt id

/-- The token before the next one; the first one has itself before it. -/
def previous : Reader Token := tokenAt (· - 1)

def move : Reader Unit := fun t => .some (.ok () { t with position := t.position + 1 })

/-- The position moves on, but not from an end of file. -/
def take : Reader Unit := do
  let next ← peek
  if next.kind = .endOfFile then return () else move

def accept (s : Symbol) : Reader Bool := do
  let next ← peek
  if next.kind = .symbol s then
    take
    return true
  else return false

def expect (s : Symbol) : Reader Unit := do
  let next ← peek
  if next.kind = .symbol s then take else fail (.expected (.symbol s) next)

def expectName : Reader Word := do
  let next ← peek
  if next.kind = .name then
    take
    return next.toWord
  else fail (.expected .name next)

def freshId : Reader Nat := fun t => .some (.ok t.nextId { t with nextId := t.nextId + 1 })

/-- From an offset to the end of the token taken last. -/
def spanFrom (start : Nat) : Reader Span := do
  let last ← previous
  return ⟨start, last.span.stop⟩

def closeNode (start : Nat) : Reader Node := do
  let id ← freshId
  let span ← spanFrom start
  return ⟨id, span⟩

def nodeAt (span : Span) : Reader Node := do
  let id ← freshId
  return ⟨id, span⟩

/-- A round of a loop over items with commas between them, some of which were read. -/
def itemRound (item : Nat → Reader α) (done : List α) : Reader (Round (List α) (List α)) := do
  let a ← item done.length
  let more ← accept .comma
  if more then return .again (done ++ [a]) else return .leave (done ++ [a])

/-- Items with commas between them in front of a closing parenthesis. -/
def items (item : Nat → Reader α) : Reader (List α) := do
  let next ← peek
  if next.kind = .symbol .rightParen then return [] else loop (itemRound item) []

end Reader

/-- The readers for what is nested one level deeper. -/
structure Levels where
  operand : (floor : Nat) → Reader Expr
  value : Reader Expr
  statement : Reader Stmt
  body : Reader (List Stmt)

namespace Reader

def literal (start : Nat) (value : Literal) : Reader Expr := do
  take
  return .literal (← closeNode start) value

def expression (inner : Levels) : Reader Expr := do
  let target ← inner.operand 0
  let equals ← peek
  if equals.kind = .symbol .equal then
    take
    let value ← inner.value
    let span := target.span.join value.span
    match target with
    | .read _ name => return .assign (← nodeAt span) name value
    | .property _ object name => return .setProperty (← nodeAt span) object name value
    | _ =>
        note (.of .invalidTarget equals.toWord)
        return target
  else return target

def unary (inner : Levels) (start : Nat) (op : UnaryOp) : Reader Expr := do
  take
  let operand ← inner.operand Operator.tightest
  return .unary (← closeNode start) op operand

def group (inner : Levels) (start : Nat) : Reader Expr := do
  take
  let e ← expression inner
  expect .rightParen
  return .group (← closeNode start) e

def primary (inner : Levels) : Reader Expr := do
  let t ← peek
  let start := t.span.start
  match t.kind with
  | .number value => literal start (.number value)
  | .string contents => literal start (.string contents)
  | .keyword .true_ => literal start (.bool true)
  | .keyword .false_ => literal start (.bool false)
  | .keyword .nil_ => literal start .nil
  | .name =>
      take
      return .read (← closeNode start) t.toWord
  | .symbol .leftParen => group inner start
  | .symbol .minus => unary inner start .neg
  | .symbol .bang => unary inner start .not
  | _ => fail (.expected .expression t)

def argument (inner : Levels) (i : Nat) : Reader Expr := do
  if i = maxArguments then
    let t ← peek
    note (.of .tooManyArguments t.toWord)
  expression inner

def callOn (inner : Levels) (callee : Expr) : Reader Expr := do
  take
  let args ← items (argument inner)
  expect .rightParen
  return .call (← closeNode callee.span.start) callee args

def propertyOf (object : Expr) : Reader Expr := do
  take
  let name ← expectName
  return .property (← closeNode object.span.start) object name

def operation (inner : Levels) (o : Operator) (left : Expr) : Reader Expr := do
  take
  let right ← inner.operand o.precedence
  return o.apply (← nodeAt (left.span.join right.span)) left right

def continuation? (inner : Levels) (floor : Nat) (left : Expr) (next : TokenKind) :
    Option (Reader Expr) :=
  match next with
  | .symbol .leftParen => some (callOn inner left)
  | .symbol .dot => some (propertyOf left)
  | kind =>
      match Operator.ofKind? kind with
      | some o => if floor < o.precedence then some (operation inner o left) else none
      | none => none

/-- A round of the loop over what continues an expression. -/
def operatorRound (inner : Levels) (floor : Nat) (left : Expr) : Reader (Round Expr Expr) := do
  let next ← peek
  match continuation? inner floor left next.kind with
  | none => return .leave left
  | some more => return .again (← more)

def operand (inner : Levels) (floor : Nat) : Reader Expr := do
  let first ← primary inner
  loop (operatorRound inner floor) first

/-- A round of the loop that drops tokens up to a place where a statement may begin. -/
def skipRound (x : Extent) (_ : Unit) : Reader (Round Unit Unit) := do
  let next ← peek
  if next.kind = .endOfFile then return .leave ()
  else
    let last ← previous
    if last.kind = .symbol .semicolon ∨ x.endsAt next.kind ∨ next.kind.startsStatement then
      return .leave ()
    else
      take
      return .again ()

/-- Goes on behind a fault; never past a closing brace that ends the sequence. -/
def resume (x : Extent) : Reader Unit := do
  let next ← peek
  if x.endsAt next.kind then return ()
  else
    take
    loop (skipRound x) ()

def countFaults : Reader Nat := fun t => .some (.ok t.faults.length t)

/-- A round of a sequence of statements, some of which were read. -/
def statementRound (x : Extent) (item : Reader Stmt) (done : List Stmt) :
    Reader (Round (List Stmt) (List Stmt)) := do
  let next ← peek
  if next.kind = .endOfFile ∨ x.endsAt next.kind then return .leave done
  else
    match ← attempt item with
    | .ok s => return .again (done ++ [s])
    | .error fault =>
        note fault
        let count ← countFaults
        if maxSyntaxFaults ≤ count then return .leave done
        else
          resume x
          return .again done

def statements (x : Extent) (item : Reader Stmt) : Reader (List Stmt) :=
  loop (statementRound x item) []

def variableRest (inner : Levels) (start : Nat) : Reader Stmt := do
  let name ← expectName
  let hasInit ← accept .equal
  let init ← if hasInit then some <$> expression inner else pure none
  expect .semicolon
  return .var (← closeNode start) name init

def callable (inner : Levels) : Reader Callable := do
  let name ← expectName
  expect .leftParen
  let params ← items fun _ => expectName
  expect .rightParen
  let body ← inner.body
  let decl : Callable := { name, params, body }
  if maxArguments < decl.arity then note (.of .tooManyParameters name)
  return decl

/-- A round of the loop over the methods of a class, some of which were read. -/
def methodRound (inner : Levels) (done : List Callable) :
    Reader (Round (List Callable) (List Callable)) := do
  let next ← peek
  if next.kind = .endOfFile ∨ next.kind = .symbol .rightBrace then return .leave done
  else
    let decl ← callable inner
    return .again (done ++ [decl])

def classRest (inner : Levels) (start : Nat) : Reader Stmt := do
  let name ← expectName
  expect .leftBrace
  let methods ← loop (methodRound inner) []
  expect .rightBrace
  return .classDef (← closeNode start) name methods

def declaration (inner : Levels) : Reader Stmt := do
  let t ← peek
  let start := t.span.start
  match t.kind with
  | .keyword .var_ =>
      take
      variableRest inner start
  | .keyword .fun_ =>
      take
      let decl ← callable inner
      return .function (← closeNode start) decl
  | .keyword .class_ =>
      take
      classRest inner start
  | _ => inner.statement

def braces (inner : Levels) : Reader (List Stmt) := do
  expect .leftBrace
  let body ← statements .braces (declaration inner)
  expect .rightBrace
  return body

def condition (inner : Levels) : Reader Expr := do
  expect .leftParen
  let cond ← expression inner
  expect .rightParen
  return cond

def ifRest (inner : Levels) (start : Nat) : Reader Stmt := do
  let cond ← condition inner
  let body ← inner.statement
  let next ← peek
  if next.kind = .keyword .else_ then
    take
    let otherwise ← inner.statement
    return .ifThenElse (← closeNode start) cond body otherwise
  else return .ifThen (← closeNode start) cond body

def returnRest (inner : Levels) (keyword : Word) : Reader Stmt := do
  let next ← peek
  let value ← if next.kind = .symbol .semicolon then pure none else some <$> expression inner
  expect .semicolon
  return .ret (← closeNode keyword.span.start) keyword value

def forInit (inner : Levels) : Reader (Option Stmt) := do
  let t ← peek
  let start := t.span.start
  match t.kind with
  | .symbol .semicolon =>
      take
      return none
  | .keyword .var_ =>
      take
      some <$> variableRest inner start
  | _ =>
      let e ← expression inner
      expect .semicolon
      return some (.expr (← closeNode start) e)

def forClause (inner : Levels) (closer : Symbol) : Reader (Option Expr) := do
  let t ← peek
  let clause ← if t.kind = .symbol closer then pure none else some <$> expression inner
  expect closer
  return clause

def withIncrement (span : Span) (body : Stmt) : Option Expr → Reader Stmt
  | none => return body
  | some e => do
      let increment := Stmt.expr (← nodeAt e.span) e
      return .block (← nodeAt span) [body, increment]

def orTrue (span : Span) : Option Expr → Reader Expr
  | some cond => return cond
  | none => return .literal (← nodeAt span) (.bool true)

def withInit (span : Span) (loop : Stmt) : Option Stmt → Reader Stmt
  | none => return loop
  | some init => return .block (← nodeAt span) [init, loop]

def forRest (inner : Levels) (start : Nat) : Reader Stmt := do
  expect .leftParen
  let init ← forInit inner
  let cond ← forClause inner .semicolon
  let increment ← forClause inner .rightParen
  let body ← inner.statement
  let span ← spanFrom start
  let body ← withIncrement span body increment
  let cond ← orTrue span cond
  let loop := Stmt.loop (← nodeAt span) cond body
  withInit span loop init

def statement (inner : Levels) : Reader Stmt := do
  let t ← peek
  let start := t.span.start
  match t.kind with
  | .symbol .leftBrace =>
      let body ← braces inner
      return .block (← closeNode start) body
  | .keyword .print_ =>
      take
      let value ← expression inner
      expect .semicolon
      return .print (← closeNode start) value
  | .keyword .return_ =>
      take
      returnRest inner t.toWord
  | .keyword .if_ =>
      take
      ifRest inner start
  | .keyword .while_ =>
      take
      let cond ← condition inner
      let body ← inner.statement
      return .loop (← closeNode start) cond body
  | .keyword .for_ =>
      take
      forRest inner start
  | _ =>
      let value ← expression inner
      expect .semicolon
      return .expr (← closeNode start) value

/-- Nothing may be nested any more. -/
def tooDeep {α : Type} : Reader α := do
  let t ← peek
  fail (.of .tooDeep t.toWord)

end Reader

namespace Levels

def exhausted : Levels where
  operand _ := Reader.tooDeep
  value := Reader.tooDeep
  statement := Reader.tooDeep
  body := Reader.tooDeep

def next (inner : Levels) : Levels where
  operand := Reader.operand inner
  value := Reader.expression inner
  statement := Reader.statement inner
  body := Reader.braces inner

def ofDepth : Nat → Levels
  | 0 => exhausted
  | n + 1 => (ofDepth n).next

def outermost : Levels := ofDepth maxNesting

end Levels

/-- The position is not behind the first end of file. -/
def Within (t : Tape) : Prop :=
  ∃ e, t.tokens.findIdx? (·.kind == .endOfFile) = some e ∧ t.position ≤ e

/-- Wherever a round starts up to the first end of file, it finds every token that it looks up and
comes no further than the first end of file; and if it asks for another round, it took a token. -/
def Reader.Progresses {σ ρ : Type} (round : σ → Reader (Round σ ρ)) : Prop :=
  ∀ s (t : Tape), t.Within → ∃ answer ∈ round s t, answer.next.tokens = t.tokens ∧
    answer.next.Within ∧ ∀ s' next, answer = .ok (.again s') next → t.position < next.position

/-- Every round of every loop at a level. -/
structure Levels.Progress (inner : Levels) : Prop where
  statements (x : Extent) : Reader.Progresses (Reader.statementRound x (Reader.declaration inner))
  skipped (x : Extent) : Reader.Progresses (Reader.skipRound x)
  methods : Reader.Progresses (Reader.methodRound inner)
  parameters : Reader.Progresses (Reader.itemRound fun _ => Reader.expectName)
  arguments : Reader.Progresses (Reader.itemRound (Reader.argument inner))
  operators (floor : Nat) : Reader.Progresses (Reader.operatorRound inner floor)

/-- All statements of a program. -/
def Reader.program : Reader (List Stmt) := statements .file (declaration .outermost)

def Reader.outermostExpression : Reader Expr := expression .outermost

end Tape

end LamScope
