import LamScope.Text.Graphic

/-!
# Quoted text

Text between double quotes, in which every character that is not graphic, the quote and the
backslash are written as escapes.
-/
namespace LamScope.Text

/-- The code point in hexadecimal, or a short form for the most common control characters. -/
def escapeGraphic (c : Char) : List Char :=
  if c = '"' then ['\\', '"']
  else if c = '\\' then ['\\', '\\']
  else if c = '\n' then ['\\', 'n']
  else if c = '\r' then ['\\', 'r']
  else if c = '\t' then ['\\', 't']
  else if c.toNat = 0 then ['\\', '0']
  else if isGraphic c then [c]
  else ['\\', 'u', '{'] ++ Nat.toDigits 16 c.toNat ++ ['}']

def quoted (s : String) : String :=
  String.ofList ('"' :: s.toList.flatMap escapeGraphic ++ ['"'])

end LamScope.Text
