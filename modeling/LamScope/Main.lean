import LamScope.Command.Basic

/-!
# The program `lam`
-/
namespace LamScope

def environmentNames : List String := ["LAM_GATE", "NO_COLOR", "FORCE_COLOR", "CLICOLOR_FORCE"]

def readEnvironment : IO Command.Environment := do
  let values ← environmentNames.filterMapM fun name => do
    return (← IO.getEnv name).map fun value => (name, value)
  return ⟨fun name => values.lookup name⟩

/-- The system's number for an error. A failed opening reports it negated, a failed reading as it
is. -/
def errorNumber (code : UInt32) : UInt32 := if code < 0x80000000 then code else 0 - code

def fileError : IO.Error → FileError
  | .noFileOrDirectory .. => .missing
  | .permissionDenied .. => .denied
  | .inappropriateType _ code _ => if errorNumber code = 20 then .notDirectory else .directory
  | .invalidArgument _ code details =>
      if errorNumber code = 36 then .nameTooLong
      else .other s!"{details} (os error {errorNumber code})"
  | e => .other (toString e)

def readFile (path : String) : IO (Except FileError String) := do
  try
    return FileError.ofBytes (← IO.FS.readBinFile path)
  catch e => return .error (fileError e)

end LamScope

open LamScope in
def main (args : List String) : IO UInt32 := do
  let env ← readEnvironment
  let outcome ← Command.run env readFile args
  IO.print (outcome.out.render env.inColor)
  IO.eprint (outcome.err.render env.inColor)
  return outcome.exit.toUInt32
