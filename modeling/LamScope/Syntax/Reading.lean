import LamScope.Syntax.Statement
import LamScope.Token.Scan

/-!
# Reading programs

The parsers for all levels of nesting are built from the deepest one up. Each of them counts its
level in the cursor while it reads, and fails at the token that would begin one level more than the
limit.
-/
namespace LamScope

namespace Parser
variable {α : Type}

/-- Fails at the token that would begin one level too many. -/
def tooDeep : Parser α := fun c => .failed (.of .tooDeep c.current.toWord) c

/-- Reads one level deeper, unless that is more than the limit. The level is left in any case. -/
def nested (p : Parser α) : Parser α := fun c =>
  if maxNesting ≤ c.depth then tooDeep c
  else
    let reply := p (c.atDepth (c.depth + 1))
    reply.atDepth (reply.next.depth - 1)

end Parser

namespace Levels

/-- Nothing can be nested any more. -/
def exhausted : Levels where
  operand _ := .tooDeep
  value := .tooDeep
  statement := .tooDeep
  body := .tooDeep

/-- One level more than `inner` allows, counted. -/
def nested (inner : Levels) : Levels where
  operand floor := .nested (.operand inner floor)
  value := .nested (.expression inner)
  statement := .nested (.statement inner)
  body := .nested (.braces inner)

/-- So many levels. -/
def counted : Nat → Levels
  | 0 => exhausted
  | n + 1 => (counted n).nested

/-- The parsers for what stands in no other construct. There is one level more of them than may be
nested, so that it is the depth of the cursor that ends the nesting. -/
def outermost : Levels := counted (maxNesting + 1)

end Levels

/-- The statements read from a list of tokens and the faults noted on the way. -/
structure Program where
  statements : List Stmt
  faults : List SyntaxFault

namespace Program

/-- Everything from a cursor on. -/
def ofCursor (c : Cursor) : Program :=
  let (statements, last) := Parser.sequence .file (Parser.declaration .outermost) c
  { statements, faults := last.faults }

def ofTokens (tokens : List Token) : Program := ofCursor (.ofTokens tokens)

def ofSource (source : String) : Program := ofTokens (Scan.ofSource source).tokens

/-- No faults. -/
def isClean (p : Program) : Bool := p.faults.isEmpty

end Program

/-- One expression that stands in no other construct. -/
def Parser.outermostExpression : Parser Expr := expression .outermost

end LamScope
