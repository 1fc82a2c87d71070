import LamScope.Syntax.Cursor

/-!
# Reading expressions

Expressions are read by precedence. An operand is a primary expression with everything that
continues it: calls, properties, and the operators that bind tighter than a floor set by whoever
asks for the operand. Every operand, every assigned value, every statement and every function
body counts as one level of nesting; `Levels` holds the parsers for what lies one level deeper.
-/
namespace LamScope

/-- Parsers for the constructs nested one level deeper than the one being read. -/
structure Levels where
  /-- An expression whose operators all have a precedence above the floor. -/
  operand : (floor : Nat) → Parser Expr
  /-- The right side of an assignment. -/
  value : Parser Expr
  statement : Parser Stmt
  /-- The body of a function or method. -/
  body : Parser (List Stmt)

/-- An operator between two operands. -/
inductive Operator where
  | binary (op : BinaryOp)
  | logical (op : LogicalOp)
deriving DecidableEq, Repr

namespace Operator

def ofSymbol? : Symbol → Option Operator
  | .plus => some (.binary .add)
  | .minus => some (.binary .sub)
  | .star => some (.binary .mul)
  | .slash => some (.binary .div)
  | .equalEqual => some (.binary .eq)
  | .bangEqual => some (.binary .ne)
  | .less => some (.binary .lt)
  | .lessEqual => some (.binary .le)
  | .greater => some (.binary .gt)
  | .greaterEqual => some (.binary .ge)
  | _ => none

def ofKind? : TokenKind → Option Operator
  | .keyword .or_ => some (.logical .or)
  | .keyword .and_ => some (.logical .and)
  | .symbol s => ofSymbol? s
  | _ => none

/-- From the loosest, one, to the tightest, `tightest`. -/
def precedence : Operator → Nat
  | logical .or => 1
  | logical .and => 2
  | binary .eq | binary .ne => 3
  | binary .lt | binary .le | binary .gt | binary .ge => 4
  | binary .add | binary .sub => 5
  | binary .mul | binary .div => 6

def tightest : Nat := 6

def apply (o : Operator) (node : Node) (left right : Expr) : Expr :=
  match o with
  | binary op => .binary node op left right
  | logical op => .logical node op left right

end Operator

namespace Parser

def literal (start : Nat) (value : Literal) : Parser Expr := do
  take
  return .literal (← closeNode start) value

/-- An assignment, or an expression of any operators. Only names and properties can be assigned
to; another target is noted as a fault and stands alone, its value dropped. -/
def expression (inner : Levels) : Parser Expr := do
  let target ← inner.operand 0
  let equals ← peek
  if equals.kind = .symbol .equal then
    take
    let value ← inner.value
    let span := target.span.join value.span
    match target with
    | .read _ name => return .assign (← nodeAt span) name value
    | .property _ object name => return .setProperty (← nodeAt span) object name value
    | _ =>
        note (.of .invalidTarget equals.toWord)
        return target
  else return target

def unary (inner : Levels) (start : Nat) (op : UnaryOp) : Parser Expr := do
  take
  let operand ← inner.operand Operator.tightest
  return .unary (← closeNode start) op operand

def group (inner : Levels) (start : Nat) : Parser Expr := do
  take
  let e ← expression inner
  expect .rightParen
  return .group (← closeNode start) e

def primary (inner : Levels) : Parser Expr := do
  let t ← peek
  let start := t.span.start
  match t.kind with
  | .number value => literal start (.number value)
  | .string contents => literal start (.string contents)
  | .keyword .true_ => literal start (.bool true)
  | .keyword .false_ => literal start (.bool false)
  | .keyword .nil_ => literal start .nil
  | .name =>
      take
      return .read (← closeNode start) t.toWord
  | .symbol .leftParen => group inner start
  | .symbol .minus => unary inner start .neg
  | .symbol .bang => unary inner start .not
  | _ => fail (.expected .expression t)

/-- Argument number `i`. One too many is noted once and all of them are read. -/
def argument (inner : Levels) (i : Nat) : Parser Expr := do
  if i = maxArguments then
    let t ← peek
    note (.of .tooManyArguments t.toWord)
  expression inner

def arguments (inner : Levels) : Parser (List Expr) := fun c =>
  if c.isAt .rightParen then .ok [] c else commaList (argument inner) c

def callOn (inner : Levels) (callee : Expr) : Parser Expr := do
  take
  let args ← arguments inner
  expect .rightParen
  return .call (← closeNode callee.span.start) callee args

def propertyOf (object : Expr) : Parser Expr := do
  take
  let name ← expectName
  return .property (← closeNode object.span.start) object name

def operation (inner : Levels) (o : Operator) (left : Expr) : Parser Expr := do
  take
  let right ← inner.operand o.precedence
  return o.apply (← nodeAt (left.span.join right.span)) left right

/-- How the expression read so far goes on at a token, if it does. -/
def continuation? (inner : Levels) (floor : Nat) (left : Expr) (next : TokenKind) :
    Option (Parser Expr) :=
  match next with
  | .symbol .leftParen => some (callOn inner left)
  | .symbol .dot => some (propertyOf left)
  | kind =>
      match Operator.ofKind? kind with
      | some o => if floor < o.precedence then some (operation inner o left) else none
      | none => none

/-- Goes on as long as the tokens continue the expression, but at most as often as `bound` has
elements. -/
def continuedWithin (inner : Levels) (floor : Nat) : List Token → Expr → Parser Expr
  | [], left, c => .ok left c
  | _ :: bound, left, c =>
      match continuation? inner floor left c.current.kind with
      | none => .ok left c
      | some more =>
          match more c with
          | .failed fault next => .failed fault next
          | .ok e next => continuedWithin inner floor bound e next

/-- Every continuation takes a token, so the tokens to come bound their number. -/
def continued (inner : Levels) (floor : Nat) (left : Expr) : Parser Expr := fun c =>
  continuedWithin inner floor c.upcoming left c

def operand (inner : Levels) (floor : Nat) : Parser Expr := do
  let first ← primary inner
  continued inner floor first

end Parser

end LamScope
