import LamScope.Command.Outcome
import LamScope.Syntax.Outline
import LamScope.Syntax.Reference

/-!
# Inspecting a file

The commands that look at one source file. Each shows its diagnostics first and then either what
it found out or that it failed.
-/
namespace LamScope.Command

/-- What to do with a file. -/
inductive Inspection where
  | lex
  | parse
  | resolve
  | check
deriving DecidableEq, Repr

namespace Inspection

/-- A closing line, with an empty line before it, and failure. -/
def fails (form : Form) (banner : Styled) : Outcome :=
  match form with
  | .human => .complain [] ++ .complain banner ++ .failure
  | .json => .failure

/-- What is only for people. -/
def forPeople (form : Form) (o : Outcome) : Outcome :=
  match form with
  | .human => o
  | .json => .nothing

def tokenLine (t : Token) : Styled :=
  Styled.raw (Text.padLeft 4 (toString t.line) ++ " " ++ Text.padRight 16 t.kind.display ++ " "
    ++ t.text)

def lexSource (form : Form) (path source : String) : Outcome :=
  let scan := Scan.ofSource source
  let shown := Outcome.diagnostics form source path .lex (scan.faults.map ScanFault.diagnostic)
  if scan.isClean then
    let count := scan.tokens.length
    shown ++ forPeople form (.print (Banner.heading s!"Tokens ({count})") ++ .blankLine
      ++ .printAll (scan.tokens.map tokenLine) ++ .blankLine
      ++ .print (Banner.ok s!"Lex: {count} tokens"))
  else shown ++ fails form (Banner.failed "Lex" scan.faults.length)

/-- The faults whose line is not the line of the last one kept. -/
def onePerLine (last : Option Nat) : List ScanFault → List ScanFault
  | [] => []
  | f :: rest =>
      if last = some f.line then onePerLine last rest else f :: onePerLine (some f.line) rest

/-- One scan fault for each line, and all syntax faults. -/
def parseDiagnostics (scan : Scan) (program : Program) : List Diagnostic :=
  (onePerLine none scan.faults).map ScanFault.diagnostic
    ++ program.faults.map SyntaxFault.diagnostic

/-- The outlines of statements numbered from `i`. -/
def outlines (i : Nat) : List Stmt → List Styled
  | [] => []
  | s :: ss =>
      Styled.raw s!"--- Statement {i} ---" :: Styled.raw (Outline.ofStmt s).text :: []
        :: outlines (i + 1) ss

def parseSource (form : Form) (path source : String) : Outcome :=
  let scan := Scan.ofSource source
  let program := Program.ofTokens scan.tokens
  let ds := parseDiagnostics scan program
  let shown := Outcome.diagnostics form source path .parse ds
  if ds.isEmpty then
    let tokens := scan.tokens.length
    let statements := program.statements.length
    shown ++ forPeople form (.print (Banner.heading s!"Lexed {tokens} tokens") ++ .blankLine
      ++ .print (Banner.heading s!"AST ({statements} statements)") ++ .blankLine
      ++ .printAll (outlines 1 program.statements) ++ .print (Banner.ok "Parse"))
  else shown ++ fails form (Banner.failed "Parse" ds.length)

def phaseTitle : Phase → String
  | .lex => "Lex"
  | .parse => "Parse"
  | .resolve => "Resolve"

/-- One recorded distance, with the name and line of its variable. -/
def recordLine (names : List (Nat × Word)) (record : Nat × Nat) : Styled :=
  let arrow := " #" ++ toString record.1 ++ " -> " ++ toString record.2
  match names.find? fun n => n.1 == record.1 with
  | some (_, w) =>
      Styled.raw ("  line " ++ Text.padRight 4 (toString w.line) ++ " "
        ++ Text.padRight 12 w.text ++ arrow)
  | none => Styled.raw ("  " ++ Text.spaces 22 ++ arrow)

def resolveSource (policy : Policy) (form : Form) (path source : String) : Outcome :=
  let a := Analysis.ofSource policy source
  let shown := Outcome.diagnostics form source path a.phase a.diagnostics
  if a.hasErrors then shown ++ fails form (Banner.failed (phaseTitle a.phase) a.errorCount)
  else
    let names := Stmt.allReferences a.program
    let size := a.locals.size
    shown ++ forPeople form (.print (Banner.heading s!"Resolutions ({size})") ++ .blankLine
      ++ .printAll (a.locals.entries.map (recordLine names)) ++ .blankLine
      ++ .print (Banner.okWithWarnings "Resolve" a.warningCount))

def checkSource (policy : Policy) (form : Form) (path source : String) : Outcome :=
  let a := Analysis.ofSource policy source
  let shown := Outcome.diagnostics form source path a.phase a.diagnostics
  if a.mayExecute then
    shown ++ forPeople form (.print (Banner.okWithWarnings "Check" a.warningCount))
  else if 0 < a.errorCount then shown ++ fails form (Banner.failed "Check" a.errorCount)
  else
    let warnings := a.warningCount
    let gate := policy.gate.name
    shown ++ fails form
      (Banner.blocked "Check" s!"{warnings} warning(s) under gate `{gate}`")

def run (what : Inspection) (policy : Policy) (form : Form) (path source : String) : Outcome :=
  match what with
  | lex => lexSource form path source
  | parse => parseSource form path source
  | resolve => resolveSource policy form path source
  | check => checkSource policy form path source

end Inspection

end LamScope.Command
