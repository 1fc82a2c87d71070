import LamScope.FileError

/-!
# Trees of files

What reading a path gives, seen from a place in a tree of folders and files. The path is followed
name by name, and the first name that leads nowhere decides the error.
-/
namespace LamScope

inductive FileTree where
  | file (bytes : ByteArray)
  | folder (entries : List (String × FileTree))

/-- A part of a tree, and the folders around it, the nearest first. -/
structure Place where
  tree : FileTree
  around : List FileTree

namespace Place

/-- In bytes, as the next one. -/
def maxNameLength : Nat := 255

def maxPathLength : Nat := 4095

def outermost (p : Place) : Place :=
  match p.around.getLast? with
  | some tree => ⟨tree, []⟩
  | none => p

/-- Nothing is around the outermost folder but itself. -/
def parent (p : Place) : Place :=
  match p.around with
  | tree :: around => ⟨tree, around⟩
  | [] => p

/-- Goes one name further. Two slashes in a row enclose an empty name, which leads no further, but
only a folder can stand before a slash. -/
def step (p : Place) (name : String) : Except FileError Place :=
  match p.tree with
  | .file _ => .error .notDirectory
  | .folder entries =>
      if name = "" ∨ name = "." then .ok p
      else if name = ".." then .ok p.parent
      else if maxNameLength < name.utf8ByteSize then .error .nameTooLong
      else
        match entries.lookup name with
        | some tree => .ok ⟨tree, p.tree :: p.around⟩
        | none => .error .missing

def follow : Place → List String → Except FileError Place
  | p, [] => .ok p
  | p, name :: names => do (← p.step name).follow names

/-- The text of the file at the path. -/
def read (p : Place) (path : String) : Except FileError String :=
  if path.toList.contains (Char.ofNat 0) then .error .zeroInPath
  else if path = "" then .error .missing
  else if maxPathLength < path.utf8ByteSize then .error .nameTooLong
  else do
    let start := if path.startsWith "/" then p.outermost else p
    match (← start.follow (path.splitOn "/")).tree with
    | .file bytes => FileError.ofBytes bytes
    | .folder _ => .error .directory

end Place

end LamScope
