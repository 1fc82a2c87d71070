/-!
# Outlines

A tree of named parts written out over many lines, four spaces deeper for each level. Every part
of a larger one stands on a line of its own and ends in a comma; a list without items is a pair of
brackets.
-/
namespace LamScope

inductive Outline where
  | atom (text : String)
  /-- Parts without names of their own, in parentheses. -/
  | tuple (name : String) (parts : List Outline)
  /-- Named parts, in braces. -/
  | record (name : String) (fields : List (String × Outline))
  | list (items : List Outline)

namespace Outline

def indent (level : Nat) : List Char := '\n' :: List.replicate (4 * level) ' '

/-- What stands between an opening and a closing bracket. -/
def enclose (level : Nat) (opening closing : Char) (inside : List Char) : List Char :=
  if inside.isEmpty then [opening, closing] else opening :: inside ++ indent level ++ [closing]

mutual

/-- The text of an outline that begins on a line of the given level. -/
def layout (level : Nat) : Outline → List Char
  | atom text => text.toList
  | tuple name parts => name.toList ++ enclose level '(' ')' (layoutParts (level + 1) parts)
  | record name fields =>
      name.toList ++ ' ' :: enclose level '{' '}' (layoutFields (level + 1) fields)
  | list items => enclose level '[' ']' (layoutParts (level + 1) items)

def layoutParts (level : Nat) : List Outline → List Char
  | [] => []
  | o :: os => indent level ++ layout level o ++ ',' :: layoutParts level os

def layoutField (level : Nat) : String × Outline → List Char
  | (name, o) => name.toList ++ ':' :: ' ' :: layout level o

def layoutFields (level : Nat) : List (String × Outline) → List Char
  | [] => []
  | f :: fs => indent level ++ layoutField level f ++ ',' :: layoutFields level fs

end

def text (o : Outline) : String := String.ofList (layout 0 o)

end Outline

end LamScope
