import LamScope.Double
import LamScope.Span

/-!
# Tokens

A token is a piece of source text with its place and its kind. Names and keywords also occur
inside syntax trees, without their kind, as words.
-/
namespace LamScope

inductive Keyword where
  | and_ | class_ | else_ | false_ | fun_ | for_ | if_ | nil_ | or_ | print_ | return_ | true_
  | var_ | while_
deriving DecidableEq, Repr

namespace Keyword

def text : Keyword → String
  | and_ => "and"
  | class_ => "class"
  | else_ => "else"
  | false_ => "false"
  | fun_ => "fun"
  | for_ => "for"
  | if_ => "if"
  | nil_ => "nil"
  | or_ => "or"
  | print_ => "print"
  | return_ => "return"
  | true_ => "true"
  | var_ => "var"
  | while_ => "while"

def all : List Keyword :=
  [and_, class_, else_, false_, fun_, for_, if_, nil_, or_, print_, return_, true_, var_, while_]

def ofText? (s : String) : Option Keyword := all.find? fun k => k.text == s

/-- Reading resumes at these keywords after a fault. -/
def startsStatement : Keyword → Bool
  | class_ | fun_ | var_ | for_ | if_ | while_ | print_ | return_ => true
  | _ => false

end Keyword

/-- Operators and punctuation. -/
inductive Symbol where
  | plus | minus | star | slash | bang | bangEqual | equal | equalEqual | less | lessEqual
  | greater | greaterEqual | dot | leftParen | rightParen | leftBrace | rightBrace | comma
  | semicolon
deriving DecidableEq, Repr

namespace Symbol

def text : Symbol → String
  | plus => "+"
  | minus => "-"
  | star => "*"
  | slash => "/"
  | bang => "!"
  | bangEqual => "!="
  | equal => "="
  | equalEqual => "=="
  | less => "<"
  | lessEqual => "<="
  | greater => ">"
  | greaterEqual => ">="
  | dot => "."
  | leftParen => "("
  | rightParen => ")"
  | leftBrace => "\x7b"
  | rightBrace => "\x7d"
  | comma => ","
  | semicolon => ";"

/-- The symbol written as one character. -/
def single? : Char → Option Symbol
  | '+' => some plus
  | '-' => some minus
  | '*' => some star
  | '/' => some slash
  | '!' => some bang
  | '=' => some equal
  | '<' => some less
  | '>' => some greater
  | '.' => some dot
  | '(' => some leftParen
  | ')' => some rightParen
  | '{' => some leftBrace
  | '}' => some rightBrace
  | ',' => some comma
  | ';' => some semicolon
  | _ => none

/-- The symbol written as a character followed by an equals sign. -/
def withEqual? : Char → Option Symbol
  | '!' => some bangEqual
  | '=' => some equalEqual
  | '<' => some lessEqual
  | '>' => some greaterEqual
  | _ => none

end Symbol

inductive TokenKind where
  | number (value : Double)
  /-- A string literal, with its text between the quotes. -/
  | string (contents : String)
  | name
  | keyword (k : Keyword)
  | symbol (s : Symbol)
  | endOfFile
deriving DecidableEq, Repr

namespace TokenKind

def quoted (s : String) : String := "'" ++ s ++ "'"

/-- How messages speak of a token. -/
def display : TokenKind → String
  | number _ => "a number"
  | string _ => "a string"
  | name => "a name"
  | keyword k => quoted k.text
  | symbol s => quoted s.text
  | endOfFile => "end of file"

def startsStatement : TokenKind → Bool
  | keyword k => k.startsStatement
  | _ => false

end TokenKind

/-- Text with its place; the line counts from one. -/
structure Word where
  text : String
  line : Nat
  span : Span
deriving DecidableEq, Repr

structure Token extends Word where
  kind : TokenKind
deriving DecidableEq, Repr

end LamScope
