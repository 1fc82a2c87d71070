import LamScope.Command.Help
import LamScope.Suggest

/-!
# Explaining codes
-/
namespace LamScope.Command

/-- A question about a near miss, below an error. -/
def suggestion (name : String) (known : List String) : Outcome :=
  match Suggest.question? name known with
  | some question => .complain (Help.indent ++ Styled.paint .dimmed question)
  | none => .nothing

namespace Explain

def codeStyle : Style := .boldOf .red

/-- White space around a code and the case of its letters do not matter. -/
def normalize (code : String) : String :=
  String.ofList ((Text.trim code.toList).map Char.toUpper)

def one (code : String) : Outcome :=
  match CodeInfo.find? (normalize code) with
  | some info =>
      .print (Styled.paint codeStyle info.code ++ Styled.raw ": "
          ++ Styled.paint .bold info.title)
        ++ .print (Help.heading "category" ++ Styled.raw (": " ++ info.category.name))
        ++ .blankLine ++ .print (Styled.raw info.explanation)
  | none =>
      .error s!"unknown error code `{code}`" ++ suggestion (normalize code) CodeInfo.codes

def all : Outcome :=
  .printAll (CodeInfo.all.map fun info => Help.indent ++ Styled.paint codeStyle info.code
    ++ Styled.raw ("  " ++ Text.padRight 11 info.category.name ++ " " ++ info.title))

end Explain

end LamScope.Command
