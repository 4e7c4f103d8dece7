import MlFront.CommandLine.Basic

/-!
# A folder with one file

`Folder.read` follows a path from inside a folder that holds one file, the way
the system follows it: `.` stays, `..` leads out of the folder, a file leads
nowhere. Outside the folder there are only the folders above it.
-/

namespace MlFront

/-- A folder with one file in it. -/
structure Folder where
  name : String
  content : ByteArray

namespace Folder

/-- Where a path can lead. -/
inductive Place where
  | inside
  | outside
  | file
  deriving DecidableEq, Repr

/-- The longest name of a file, in bytes. -/
def maxName : Nat := 255

/-- The longest path, in bytes. -/
def maxPath : Nat := 4095

/-- Where one step of a path leads. -/
def enter (folder : Folder) (place : Place) (name : String) : Except ReadFailure Place :=
  if place = .file then .error .notDirectory
  else if name = "" || name = "." then .ok place
  else if name = ".." then .ok .outside
  else if maxName < name.utf8ByteSize then .error .nameTooLong
  else if place = .inside && name = folder.name then .ok .file
  else .error .notFound

/-- Where a path leads. An empty path leads nowhere, one that starts with a slash
starts outside of the folder. -/
def follow (folder : Folder) (path : String) : Except ReadFailure Place :=
  if path = "" then .error .notFound
  else if maxPath < path.utf8ByteSize then .error .nameTooLong
  else
    (path.splitOn "/").foldlM folder.enter
      (if path.startsWith "/" then .outside else .inside)

/-- The text of the file that a path leads to. -/
def read (folder : Folder) (path : String) : Except ReadFailure String := do
  match ← folder.follow path with
  | .file => CommandLine.decode folder.content
  | _ => throw .isDirectory

end Folder

end MlFront
