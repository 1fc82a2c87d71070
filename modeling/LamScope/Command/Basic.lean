import LamScope.Command.Explain
import LamScope.Command.Inspect
import LamScope.FileError

/-!
# Commands

The operands name a command. A name that ends like a source file stands for checking that file.
A command that inspects a file is carried out in two steps, so that reading the file stays outside:
`path?` says which file is needed, and `respond` takes what reading it gave.
-/
namespace LamScope

inductive Command where
  | usage
  | version
  | explain (code : String)
  | listCodes
  | inspect (what : Command.Inspection) (path : String)
  /-- A command that needs a file stands alone. -/
  | missingFile (name : String)
  | unknown (name : String)
deriving DecidableEq, Repr

namespace Command

def ofInspection (what : Inspection) (name : String) : List String → Command
  | [] => missingFile name
  | path :: _ => inspect what path

def ofOperands : List String → Command
  | [] => usage
  | name :: rest =>
      match name with
      | "lex" => ofInspection .lex name rest
      | "parse" => ofInspection .parse name rest
      | "resolve" => ofInspection .resolve name rest
      | "check" => ofInspection .check name rest
      | "explain" =>
          match rest with
          | code :: _ => explain code
          | [] => listCodes
      | "help" | "--help" | "-h" => usage
      | "version" | "--version" | "-V" => version
      | other => if other.endsWith ".lam" then inspect .check other else unknown other

/-- The file that the command inspects. -/
def path? : Command → Option String
  | inspect _ path => some path
  | _ => none

/-- What a command answers, given what reading its file gave. -/
def respond (o : Options) (contents : Except FileError String) : Command → Outcome
  | usage => Help.usage
  | version => .print (Styled.raw ("lam " ++ release))
  | explain code => Explain.one code
  | listCodes => Explain.all
  | inspect what path =>
      match contents with
      | .ok source => what.run o.policy o.form path source
      | .error e => .error (e.message path)
  | missingFile name =>
      .complain (Styled.raw ("Usage: lam " ++ name ++ " ") ++ Help.argument "<file.lam>")
        ++ .failure
  | unknown name =>
      .error s!"unknown command `{name}`" ++ suggestion name names ++ .complain [] ++ Help.usage

/-- Reads the command line, reads the file it names, if any, and carries the command out. Nothing
is read when the options are at fault. -/
def run {m : Type → Type} [Monad m] (env : Environment)
    (read : String → m (Except FileError String)) (args : List String) : m Outcome :=
  match Options.read env args with
  | .error e => return .error e.message
  | .ok o => do
      let command := ofOperands o.operands
      let contents ← match command.path? with
        | some path => read path
        | none => pure (.error .missing)
      return command.respond o contents

end Command

end LamScope
