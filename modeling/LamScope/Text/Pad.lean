/-!
# Padding

Fields of a fixed width, counted in characters. Longer text is left as it is.
-/
namespace LamScope.Text

def spaces (n : Nat) : String := String.ofList (List.replicate n ' ')

def padLeft (width : Nat) (s : String) : String := spaces (width - s.length) ++ s

def padRight (width : Nat) (s : String) : String := s ++ spaces (width - s.length)

end LamScope.Text
