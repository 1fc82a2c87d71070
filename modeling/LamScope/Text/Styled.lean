/-!
# Styled text

Text for a terminal is a list of chunks, each with a style or without. It can be written plain,
or with the control sequences that switch styles on and off.
-/
namespace LamScope

inductive Color where
  | red | green | yellow | blue | cyan
deriving DecidableEq, Repr

inductive Weight where
  | bold | dimmed
deriving DecidableEq, Repr

structure Style where
  weight : Option Weight
  color : Option Color
deriving DecidableEq, Repr

namespace Style

def bold : Style := ⟨some .bold, none⟩

def dimmed : Style := ⟨some .dimmed, none⟩

def ofColor (c : Color) : Style := ⟨none, some c⟩

def boldOf (c : Color) : Style := ⟨some .bold, some c⟩

def weightCode : Weight → String
  | .bold => "1"
  | .dimmed => "2"

def colorCode : Color → String
  | .red => "31"
  | .green => "32"
  | .yellow => "33"
  | .blue => "34"
  | .cyan => "36"

/-- The control sequence that switches the style on. -/
def opening (s : Style) : List Char :=
  let codes := (s.weight.map weightCode).toList ++ (s.color.map colorCode).toList
  '\x1b' :: '[' :: (";".intercalate codes).toList ++ ['m']

end Style

namespace Styled

/-- The control sequence that switches all styles off. -/
def reset : List Char := ['\x1b', '[', '0', 'm']

/-- Switches the style on again wherever the text switches it off. -/
def reopened (opening : List Char) : List Char → List Char
  | '\x1b' :: '[' :: '0' :: 'm' :: rest => reset ++ opening ++ reopened opening rest
  | c :: rest => c :: reopened opening rest
  | [] => []

end Styled

structure Chunk where
  style : Option Style
  text : List Char
deriving DecidableEq, Repr

def Chunk.plain (c : Chunk) : List Char := c.text

def Chunk.ansi (c : Chunk) : List Char :=
  match c.style with
  | none => c.text
  | some style => style.opening ++ Styled.reopened style.opening c.text ++ Styled.reset

abbrev Styled := List Chunk

namespace Styled

/-- Text without a style. -/
def raw (s : String) : Styled := [⟨none, s.toList⟩]

def paint (style : Style) (s : String) : Styled := [⟨some style, s.toList⟩]

def newline : Styled := raw "\n"

def plain (t : Styled) : List Char := t.flatMap Chunk.plain

def ansi (t : Styled) : List Char := t.flatMap Chunk.ansi

/-- Written with control sequences or without. -/
def render (inColor : Bool) (t : Styled) : String :=
  String.ofList (if inColor then t.ansi else t.plain)

end Styled

end LamScope
