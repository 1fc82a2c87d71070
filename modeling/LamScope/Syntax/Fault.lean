import LamScope.Token

/-!
# Syntax faults

What can be wrong with a list of tokens. A fault knows its cause; its wording and the advice that
goes with it are functions of the cause.
-/
namespace LamScope

/-- The most arguments of a call and the most parameters of a function. -/
def maxArguments : Nat := 255

/-- How deep constructs may nest in a source text. -/
def maxNesting : Nat := 128

/-- What the grammar asks for at one place. -/
inductive Expectation where
  | symbol (s : Symbol)
  | name
  | expression
deriving DecidableEq, Repr

inductive SyntaxFault.Cause where
  | expected (what : Expectation) (found : TokenKind)
  | invalidTarget
  | tooManyArguments
  | tooManyParameters
  | tooDeep
deriving DecidableEq, Repr

/-- A fault and the token that shows it. -/
structure SyntaxFault where
  cause : SyntaxFault.Cause
  line : Nat
  span : Span
deriving DecidableEq, Repr

namespace SyntaxFault

def of (cause : Cause) (w : Word) : SyntaxFault := ⟨cause, w.line, w.span⟩

def expected (what : Expectation) (found : Token) : SyntaxFault :=
  of (.expected what found.kind) found.toWord

namespace Cause

def expectedMessage (what : Expectation) (found : TokenKind) : String :=
  let tail := ", found " ++ found.display
  match what with
  | .symbol .semicolon => "Expected ';' after statement" ++ tail
  | .symbol .leftBrace => "Expected '\x7b' to start block" ++ tail
  | .symbol .rightBrace => "Expected '\x7d' to close block" ++ tail
  | .symbol .rightParen =>
      if found = .endOfFile then "Unclosed '(' - missing ')'" else "Expected ')'" ++ tail
  | .symbol s => "Expected " ++ TokenKind.quoted s.text ++ tail
  | .name => "Expected name" ++ tail
  | .expression => "Expected expression" ++ tail

def expectedHint? (what : Expectation) (found : TokenKind) : Option String :=
  match what, found with
  | .symbol .semicolon, .symbol .rightBrace =>
      some "statements end with ';', even the last one in a block"
  | .symbol .semicolon, _ => some "statements end with ';'"
  | .symbol .leftBrace, _ => some "blocks start with '\x7b'"
  | .symbol .rightBrace, _ => some "every '\x7b' needs a matching '\x7d'"
  | .symbol .leftParen, _ => some "conditions and parameter lists go in parentheses"
  | .symbol .rightParen, .endOfFile => some "add ')' to close the parenthesis"
  | .symbol _, _ => none
  | .expression, .symbol .equal => some "put the value after '='"
  | .expression, .symbol .semicolon => some "statement is incomplete"
  | .expression, _ => some "try a value, variable, or function call"
  | .name, .number _ => some "names can't start with a number"
  | .name, .keyword _ => some "keywords can't be used as names"
  | .name, _ => some "names start with a letter or '_'"

def message : Cause → String
  | expected what found => expectedMessage what found
  | invalidTarget => "Invalid assignment target"
  | tooManyArguments => s!"Can't have more than {maxArguments} arguments"
  | tooManyParameters => s!"Can't have more than {maxArguments} parameters"
  | tooDeep => s!"Nesting is deeper than {maxNesting} levels"

def hint? : Cause → Option String
  | expected what found => expectedHint? what found
  | invalidTarget => some "only variables and properties can be assigned to"
  | tooManyArguments | tooManyParameters => none
  | tooDeep => some "split the code into smaller functions"

end Cause

end SyntaxFault

end LamScope
