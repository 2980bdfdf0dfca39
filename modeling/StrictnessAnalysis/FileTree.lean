import StrictnessAnalysis.Location
import StrictnessAnalysis.Text.Quoted

/-! Trees of files, and reading from them. A location leads from the root through folders; a double
dot leads back to the folder above, and from the root to itself. A name is too long only for the
folder in which it is looked up, so what is wrong before it on the way is found first; a path too
long as a whole is not followed at all. -/

namespace StrictnessAnalysis

open Text

/-- Why a file could not be read. -/
inductive ReadFailure
  | missing
  | isFolder
  | notFolder
  | tooLong
  | other (reason : String)

def ReadFailure.message (failure : ReadFailure) (path : String) : String :=
  match failure with
  | .missing => "[Errno 2] No such file or directory: " ++ Quoted.quoted path
  | .isFolder => "[Errno 21] Is a directory: " ++ Quoted.quoted path
  | .notFolder => "[Errno 20] Not a directory: " ++ Quoted.quoted path
  | .tooLong => "[Errno 36] File name too long: " ++ Quoted.quoted path
  | .other reason => reason

/-- The largest number of bytes in a name. -/
def nameLimit : Nat := 255

/-- The largest number of bytes in a path. -/
def pathLimit : Nat := 4095

inductive FileTree
  | file (content : List UInt8)
  | folder (entries : List (String × FileTree))

namespace FileTree

/-- Follows names from the folder on top of `trail`, which holds the folders above it too. -/
def follow : (trail : List FileTree) → List String → Except ReadFailure FileTree
  | [], _ => .error .missing
  | tree :: _, [] => .ok tree
  | .file _ :: _, _ :: _ => .error .notFolder
  | .folder entries :: above, name :: rest =>
    if name = ".." then
      match above with
      | [] => follow [.folder entries] rest
      | above => follow above rest
    else if nameLimit < name.utf8ByteSize then .error .tooLong
    else
      match entries.lookup name with
      | none => .error .missing
      | some tree => follow (tree :: .folder entries :: above) rest

def read (tree : FileTree) (location : Location) : Except ReadFailure (List UInt8) := do
  match ← follow [tree] location.names with
  | .file content => return content
  | .folder _ => throw .isFolder

/-- The tree with something put at the end of a path of names, in new folders where there are none.
-/
def put (what : FileTree) : List String → FileTree → FileTree
  | [], _ => what
  | name :: rest, tree =>
    let entries := match tree with
      | .folder entries => entries
      | .file _ => []
    let inner := (entries.lookup name).getD (.folder [])
    .folder ((name, put what rest inner) :: entries.filter fun entry => entry.1 ≠ name)

end FileTree

end StrictnessAnalysis
