import LamScope.Syntax.Expression

/-!
# Reading statements

Statements and declarations are read in sequences that survive faults: a fault inside a
statement is noted and reading resumes after the next semicolon or at the next keyword that
starts a statement. Inside braces it never resumes past the closing brace. A sequence ends early
once `maxSyntaxFaults` faults have been noted.
-/
namespace LamScope

def maxSyntaxFaults : Nat := 20

/-- What a sequence of statements fills. -/
inductive Extent where
  | file
  | braces
deriving DecidableEq, Repr

/-- The token that ends the sequence. -/
def Extent.endsAt (x : Extent) (kind : TokenKind) : Bool :=
  x == .braces && kind == .symbol .rightBrace

namespace Cursor

/-- Drops tokens up to a place where a statement may begin. -/
def skip (x : Extent) (previous : Token) : List Token → Token × List Token
  | [] => (previous, [])
  | t :: ts =>
      if previous.kind = .symbol .semicolon ∨ x.endsAt t.kind ∨ t.kind.startsStatement then
        (previous, t :: ts)
      else skip x t ts

/-- Where reading goes on after a fault. Unless the sequence ends here, at least one token is
dropped. -/
def resume (x : Extent) (c : Cursor) : Cursor :=
  match c.upcoming with
  | [] => c
  | t :: ts =>
      if x.endsAt t.kind then c
      else
        let (previous, upcoming) := skip x t ts
        { c with previous, upcoming }

end Cursor

namespace Parser

/-- A sequence of at most as many statements, faulty ones included, as `bound` has elements. -/
def sequenceWithin (x : Extent) (item : Parser Stmt) : List Token → Cursor → List Stmt × Cursor
  | [], c => ([], c)
  | _ :: bound, c =>
      if c.atEnd || x.endsAt c.current.kind then ([], c)
      else
        match item c with
        | .ok s next =>
            let (ss, last) := sequenceWithin x item bound next
            (s :: ss, last)
        | .failed fault next =>
            let noted := next.note fault
            if maxSyntaxFaults ≤ noted.faults.length then ([], noted)
            else sequenceWithin x item bound (noted.resume x)

/-- A sequence of statements up to its end. It always succeeds: faults are noted on the way. Every
statement takes a token, and so does resuming after a faulty one that took none. -/
def sequence (x : Extent) (item : Parser Stmt) (c : Cursor) : List Stmt × Cursor :=
  sequenceWithin x item c.upcoming c

/-- `name = value;` or `name;`, after the keyword. -/
def variableRest (inner : Levels) (start : Nat) : Parser Stmt := do
  let name ← expectName
  let hasInit ← accept .equal
  let init ← if hasInit then some <$> expression inner else pure none
  expect .semicolon
  return .var (← closeNode start) name init

def parameters : Parser (List Word) := fun c =>
  if c.isAt .rightParen then .ok [] c else commaList (fun _ => expectName) c

/-- A name, parameters in parentheses and a body. -/
def callable (inner : Levels) : Parser Callable := do
  let name ← expectName
  expect .leftParen
  let params ← parameters
  expect .rightParen
  let body ← inner.body
  let decl : Callable := { name, params, body }
  if maxArguments < decl.arity then note (.of .tooManyParameters name)
  return decl

def classRest (inner : Levels) (start : Nat) : Parser Stmt := do
  let name ← expectName
  expect .leftBrace
  let methods ← many (·.isAt .rightBrace) (callable inner)
  expect .rightBrace
  return .classDef (← closeNode start) name methods

def declaration (inner : Levels) : Parser Stmt := do
  let t ← peek
  let start := t.span.start
  match t.kind with
  | .keyword .var_ =>
      take
      variableRest inner start
  | .keyword .fun_ =>
      take
      let decl ← callable inner
      return .function (← closeNode start) decl
  | .keyword .class_ =>
      take
      classRest inner start
  | _ => inner.statement

/-- Declarations between braces. -/
def braces (inner : Levels) : Parser (List Stmt) := do
  expect .leftBrace
  let body ← fun c =>
    let (body, next) := sequence .braces (declaration inner) c
    .ok body next
  expect .rightBrace
  return body

def condition (inner : Levels) : Parser Expr := do
  expect .leftParen
  let cond ← expression inner
  expect .rightParen
  return cond

def ifRest (inner : Levels) (start : Nat) : Parser Stmt := do
  let cond ← condition inner
  let body ← inner.statement
  let next ← peek
  if next.kind = .keyword .else_ then
    take
    let otherwise ← inner.statement
    return .ifThenElse (← closeNode start) cond body otherwise
  else return .ifThen (← closeNode start) cond body

def returnRest (inner : Levels) (keyword : Word) : Parser Stmt := do
  let next ← peek
  let value ← if next.kind = .symbol .semicolon then pure none else some <$> expression inner
  expect .semicolon
  return .ret (← closeNode keyword.span.start) keyword value

/-- The first clause of a `for`, with its semicolon. -/
def forInit (inner : Levels) : Parser (Option Stmt) := do
  let t ← peek
  let start := t.span.start
  match t.kind with
  | .symbol .semicolon =>
      take
      return none
  | .keyword .var_ =>
      take
      some <$> variableRest inner start
  | _ =>
      let e ← expression inner
      expect .semicolon
      return some (.expr (← closeNode start) e)

/-- A clause of a `for` that may be left out before `closer`. -/
def forClause (inner : Levels) (closer : Symbol) : Parser (Option Expr) := do
  let t ← peek
  let clause ← if t.kind = .symbol closer then pure none else some <$> expression inner
  expect closer
  return clause

/-- The increment runs after the body, in a block with it. -/
def withIncrement (span : Span) (body : Stmt) : Option Expr → Parser Stmt
  | none => return body
  | some e => do
      let increment := Stmt.expr (← nodeAt e.span) e
      return .block (← nodeAt span) [body, increment]

/-- Without a condition the loop runs on. -/
def orTrue (span : Span) : Option Expr → Parser Expr
  | some cond => return cond
  | none => return .literal (← nodeAt span) (.bool true)

/-- The first clause runs before the loop, in a block with it. -/
def withInit (span : Span) (loop : Stmt) : Option Stmt → Parser Stmt
  | none => return loop
  | some init => return .block (← nodeAt span) [init, loop]

/-- `for (init; cond; increment) body` is `{ init while (cond) { body increment; } }`. -/
def forRest (inner : Levels) (start : Nat) : Parser Stmt := do
  expect .leftParen
  let init ← forInit inner
  let cond ← forClause inner .semicolon
  let increment ← forClause inner .rightParen
  let body ← inner.statement
  let span ← fun c => .ok ⟨start, c.previous.span.stop⟩ c
  let body ← withIncrement span body increment
  let cond ← orTrue span cond
  let loop := Stmt.loop (← nodeAt span) cond body
  withInit span loop init

def statement (inner : Levels) : Parser Stmt := do
  let t ← peek
  let start := t.span.start
  match t.kind with
  | .symbol .leftBrace =>
      let body ← braces inner
      return .block (← closeNode start) body
  | .keyword .print_ =>
      take
      let value ← expression inner
      expect .semicolon
      return .print (← closeNode start) value
  | .keyword .return_ =>
      take
      returnRest inner t.toWord
  | .keyword .if_ =>
      take
      ifRest inner start
  | .keyword .while_ =>
      take
      let cond ← condition inner
      let body ← inner.statement
      return .loop (← closeNode start) cond body
  | .keyword .for_ =>
      take
      forRest inner start
  | _ =>
      let value ← expression inner
      expect .semicolon
      return .expr (← closeNode start) value

end Parser

end LamScope
