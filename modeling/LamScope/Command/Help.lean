import LamScope.Command.Outcome

/-!
# Help
-/
namespace LamScope.Command

def release : String := "0.1.0"

/-- The names of the commands. -/
def names : List String := ["lex", "parse", "resolve", "check", "explain", "help", "version"]

namespace Help

def command (s : String) : Styled := Styled.paint (.ofColor .green) s

def argument (s : String) : Styled := Styled.paint (.ofColor .cyan) s

def heading (s : String) : Styled := Styled.paint (.boldOf .yellow) s

def indent : Styled := Styled.raw "  "

def space : Styled := Styled.raw " "

def usage : Outcome :=
  .printAll [
    Styled.paint .bold "Lam" ++ space ++ Styled.paint .dimmed release
      ++ Styled.raw " - scope checking for Lam programs",
    [],
    heading "Usage" ++ Styled.raw ": " ++ command "lam" ++ space ++ argument "<command>" ++ space
      ++ argument "[args]" ++ space ++ argument "[options]",
    [],
    heading "Commands:",
    indent ++ command "lex" ++ space ++ argument "<file>"
      ++ Styled.raw "       Tokenize a file and print tokens",
    indent ++ command "parse" ++ space ++ argument "<file>"
      ++ Styled.raw "     Parse a file and print the syntax tree",
    indent ++ command "resolve" ++ space ++ argument "<file>"
      ++ Styled.raw "   Resolve scopes and print variable distances",
    indent ++ command "check" ++ space ++ argument "<file>"
      ++ Styled.raw "     Run all checks and report whether the program may run",
    indent ++ command "explain" ++ space ++ argument "[code]"
      ++ Styled.raw "   Explain an error code (no code lists them all)",
    indent ++ command "help" ++ Styled.raw "             Show this help",
    indent ++ command "version" ++ Styled.raw "          Show version",
    [],
    heading "Options:",
    indent ++ argument "--format" ++ space ++ argument "human|json"
      ++ Styled.raw "    Diagnostic output format",
    indent ++ argument "--gate" ++ space ++ argument "always|errors|any"
      ++ Styled.raw
        " Which resolver diagnostics block execution (default: errors, env LAM_GATE)",
    indent ++ argument "--max-depth" ++ space ++ argument "<n>"
      ++ Styled.raw "        Resolver nesting limit (default: 512)"]

end Help

end LamScope.Command
