/-!
# JSON documents

The values of a JSON document, with natural numbers only and the fields of an object in the order
in which they are written. Documents are laid out with two spaces for each level; empty arrays
and objects stay on one line.
-/
namespace LamScope

inductive JsonValue where
  | nat (n : Nat)
  | bool (b : Bool)
  | string (s : String)
  | array (items : List JsonValue)
  | object (fields : List (String × JsonValue))

namespace JsonValue

/-- Quotes, backslashes and control characters are escaped; everything else stands for itself. -/
def escape (c : Char) : List Char :=
  if c = '"' then ['\\', '"']
  else if c = '\\' then ['\\', '\\']
  else if c = '\n' then ['\\', 'n']
  else if c = '\r' then ['\\', 'r']
  else if c = '\t' then ['\\', 't']
  else if c = '\x08' then ['\\', 'b']
  else if c = '\x0c' then ['\\', 'f']
  else if c.toNat < 0x20 then
    ['\\', 'u', '0', '0', Nat.digitChar (c.toNat / 16), Nat.digitChar (c.toNat % 16)]
  else [c]

def quote (s : String) : List Char := '"' :: s.toList.flatMap escape ++ ['"']

/-- A new line at a level. -/
def indent (level : Nat) : List Char := '\n' :: List.replicate (2 * level) ' '

mutual

/-- The layout of a value that stands at a level. -/
def layout (level : Nat) : JsonValue → List Char
  | nat n => Nat.toDigits 10 n
  | bool b => if b then "true".toList else "false".toList
  | string s => quote s
  | array [] => ['[', ']']
  | array (v :: vs) =>
      '[' :: indent (level + 1) ++ layout (level + 1) v ++ layoutItems (level + 1) vs
        ++ indent level ++ [']']
  | object [] => ['{', '}']
  | object (f :: fs) =>
      '{' :: indent (level + 1) ++ layoutField (level + 1) f ++ layoutFields (level + 1) fs
        ++ indent level ++ ['}']

/-- The items after the first. -/
def layoutItems (level : Nat) : List JsonValue → List Char
  | [] => []
  | v :: vs => ',' :: indent level ++ layout level v ++ layoutItems level vs

def layoutField (level : Nat) : String × JsonValue → List Char
  | (key, v) => quote key ++ ':' :: ' ' :: layout level v

/-- The fields after the first. -/
def layoutFields (level : Nat) : List (String × JsonValue) → List Char
  | [] => []
  | f :: fs => ',' :: indent level ++ layoutField level f ++ layoutFields level fs

end

def text (v : JsonValue) : String := String.ofList (layout 0 v)

end JsonValue

end LamScope
