/-!
# Diagnostic codes

The codes that diagnostics carry, in increasing order, each with a title and an explanation.
-/
namespace LamScope

inductive Category where
  | syntactic
  | resolution
deriving DecidableEq, Repr

def Category.name : Category → String
  | .syntactic => "Syntax"
  | .resolution => "Resolution"

structure CodeInfo where
  code : String
  title : String
  category : Category
  explanation : String

namespace CodeInfo

def all : List CodeInfo := [
  ⟨"E0001", "unexpected character", .syntactic,
    "The scanner found a character that cannot start any token."⟩,
  ⟨"E0002", "unterminated string literal", .syntactic,
    "A string literal was opened with '\"' but never closed. Strings may span lines."⟩,
  ⟨"E0003", "invalid number format", .syntactic,
    "A numeric literal could not be read as a number."⟩,
  ⟨"E0100", "expected token not found", .syntactic,
    "The parser expected a particular token, such as ';' or ')', and found something else."⟩,
  ⟨"E0101", "invalid assignment target", .syntactic,
    "Only variables (`a = 1`) and properties (`obj.field = 1`) can be assigned to."⟩,
  ⟨"E0102", "syntax limit exceeded", .syntactic,
    "Too many arguments or parameters, or constructs nested too deeply to parse."⟩,
  ⟨"E0200", "duplicate declaration", .resolution,
    "A local variable was declared twice in the same block. Globals may be redeclared; "
      ++ "locals may not."⟩,
  ⟨"E0201", "variable read in its own initializer", .resolution,
    "`var a = a;` inside a block reads the new, not-yet-initialized `a`. Use a different name "
      ++ "to read an outer variable."⟩,
  ⟨"E0202", "unused local variable", .resolution,
    "A local variable is never read before its block ends. Assigning to it does not count as "
      ++ "a use. This is a warning."⟩,
  ⟨"E0203", "return outside of function", .resolution,
    "`return` is only allowed inside a function or method body."⟩,
  ⟨"E0204", "nesting too deep", .resolution,
    "The program nests statements or expressions deeper than the resolver's limit. Resolution "
      ++ "stops at this point."⟩]

def codes : List String := all.map CodeInfo.code

def find? (code : String) : Option CodeInfo := all.find? fun i => i.code == code

end CodeInfo

end LamScope
