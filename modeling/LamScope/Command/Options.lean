import LamScope.Analysis

/-!
# Command line options

Options may stand anywhere between the operands, with their value after an equals sign or as the
next argument. The last of several wins, and any of them wins over the environment. Arguments that
are no option are operands, even if they start with dashes.
-/
namespace LamScope.Command

/-- The variables of the environment. -/
structure Environment where
  lookup : String → Option String

namespace Environment

/-- Output goes to a file or a pipe, so it has colours only if they are asked for. -/
def inColor (env : Environment) : Bool :=
  if (env.lookup "NO_COLOR").isSome then false
  else if (env.lookup "FORCE_COLOR").isSome then true
  else
    match env.lookup "CLICOLOR_FORCE" with
    | some value => value != "0"
    | none => false

/-- A default for the gate. -/
def gate? (env : Environment) : Option String := (env.lookup "LAM_GATE").filter (· != "")

end Environment

/-- The form in which diagnostics are shown. -/
inductive Form where
  | human
  | json
deriving DecidableEq, Repr

inductive Flag where
  | format
  | gate
  | maxDepth
deriving DecidableEq, Repr

namespace Flag

def text : Flag → String
  | format => "--format"
  | gate => "--gate"
  | maxDepth => "--max-depth"

def all : List Flag := [format, gate, maxDepth]

def ofText? (s : String) : Option Flag := all.find? fun f => f.text == s

end Flag

inductive OptionError where
  | gateVariable (value : String)
  | missingValue (flag : Flag)
  | unknownForm (value : String)
  | unknownGate (value : String)
  | badDepth (value : String)
deriving DecidableEq, Repr

def OptionError.message : OptionError → String
  | gateVariable value => "LAM_GATE: " ++ Gate.unknownMessage value
  | missingValue flag => flag.text ++ " needs a value"
  | unknownForm value => s!"unknown format `{value}` (expected human or json)"
  | unknownGate value => Gate.unknownMessage value
  | badDepth value => s!"--max-depth expects a positive number, got `{value}`"

structure Options where
  operands : List String
  form : Form
  policy : Policy
deriving DecidableEq, Repr

namespace Options

/-- A positive number of 64 bits, in decimal digits after an optional plus sign. -/
def depth? (s : String) : Option Nat :=
  let digits := match s.toList with
    | '+' :: cs => cs
    | cs => cs
  let n := Double.digitsValue digits
  if !digits.isEmpty && digits.all Char.isDigit && 0 < n && n < UInt64.size then some n else none

def set (o : Options) (flag : Flag) (value : String) : Except OptionError Options :=
  match flag with
  | .format =>
      match value with
      | "human" => .ok { o with form := .human }
      | "json" => .ok { o with form := .json }
      | _ => .error (.unknownForm value)
  | .gate =>
      match Gate.ofName? value with
      | some gate => .ok { o with policy := { o.policy with gate } }
      | none => .error (.unknownGate value)
  | .maxDepth =>
      match depth? value with
      | some limit => .ok { o with policy := { o.policy with limit } }
      | none => .error (.badDepth value)

/-- Splits at the first equals sign. -/
def splitValue (arg : String) : String × Option String :=
  let cs := arg.toList
  match cs.dropWhile (· != '=') with
  | [] => (arg, none)
  | _ :: value => (String.ofList (cs.takeWhile (· != '=')), some (String.ofList value))

/-- The option that an argument sets, and the value if it holds one. -/
def flag? (arg : String) : Option (Flag × Option String) :=
  let (name, value) := splitValue arg
  (Flag.ofText? name).map fun flag => (flag, value)

/-- Goes through the arguments from the left. -/
def readFrom (o : Options) : List String → Except OptionError Options
  | [] => .ok o
  | arg :: rest =>
      match flag? arg with
      | none => readFrom { o with operands := o.operands ++ [arg] } rest
      | some (flag, some value) =>
          match o.set flag value with
          | .ok next => readFrom next rest
          | .error e => .error e
      | some (flag, none) =>
          match rest with
          | [] => .error (.missingValue flag)
          | value :: rest =>
              match o.set flag value with
              | .ok next => readFrom next rest
              | .error e => .error e

/-- The options before any argument is read. -/
def ofEnvironment (env : Environment) : Except OptionError Options :=
  let base : Options := ⟨[], .human, .default⟩
  match env.gate? with
  | none => .ok base
  | some value =>
      match Gate.ofName? value with
      | some gate => .ok { base with policy := { base.policy with gate } }
      | none => .error (.gateVariable value)

def read (env : Environment) (args : List String) : Except OptionError Options :=
  match ofEnvironment env with
  | .ok o => o.readFrom args
  | .error e => .error e

end Options

end LamScope.Command
