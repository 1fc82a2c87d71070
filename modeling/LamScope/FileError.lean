/-!
# File errors

Why a source file cannot be read.
-/
namespace LamScope

inductive FileError where
  | missing
  | directory
  | notDirectory
  | denied
  | nameTooLong
  | zeroInPath
  /-- The bytes are not UTF-8. -/
  | notText
  | other (reason : String)
deriving DecidableEq, Repr

namespace FileError

def reason : FileError → String
  | missing => "No such file or directory (os error 2)"
  | directory => "Is a directory (os error 21)"
  | notDirectory => "Not a directory (os error 20)"
  | denied => "Permission denied (os error 13)"
  | nameTooLong => "File name too long (os error 36)"
  | zeroInPath => "file name contained an unexpected NUL byte"
  | notText => "stream did not contain valid UTF-8"
  | other reason => reason

def message (path : String) (e : FileError) : String := "reading " ++ path ++ ": " ++ e.reason

end FileError

def FileError.ofBytes (bytes : ByteArray) : Except FileError String :=
  match String.fromUTF8? bytes with
  | some s => .ok s
  | none => .error .notText

end LamScope
