import Multipath.Files

/-!
Files in memory. A path is followed name by name from a place in a tree of directories: an empty
name and `.` stay, `..` goes up, and any other name leads to an entry. Names and paths have a
greatest length, and only directories lead further.
-/

namespace Multipath

inductive FileTree where
  | file (content : ByteArray)
  /-- Is read like a file and is none. -/
  | device (content : ByteArray)
  | directory (entries : List (String × FileTree))

namespace FileTree

structure Place where
  tree : FileTree
  /-- The directories above, the nearest first. -/
  above : List FileTree := []

namespace Place

/-- What one name of a path leads to. -/
def step (place : Place) (name : String) : Except FileError Place :=
  match place.tree, place.above with
  | .file _, _ | .device _, _ => .error .notDirectory
  | .directory entries, above =>
    if name = "" || name = "." then .ok place
    else if name = ".." then
      match above with
      | [] => .ok place
      | parent :: above => .ok ⟨parent, above⟩
    else if 255 < name.utf8ByteSize then .error .nameTooLong
    else
      match entries.find? (·.1 = name) with
      | some (_, tree) => .ok ⟨tree, place.tree :: above⟩
      | none => .error .missing

def root (place : Place) : Place := ⟨place.above.getLast?.getD place.tree, []⟩

/-- What a path leads to. -/
def find (place : Place) (path : String) : Except FileError FileTree :=
  if path.isEmpty then .error .missing
  else if 4095 < path.utf8ByteSize then .error .nameTooLong
  else
    let start := if path.startsWith "/" then place.root else place
    ((path.splitOn "/").foldlM step start).map Place.tree

/-- The files of the tree, as they are seen from a place. -/
def files (place : Place) : Files Id where
  read path :=
    match place.find path with
    | .ok (.file content) | .ok (.device content) => .ok content
    | .ok (.directory _) => .error .directory
    | .error e => .error e
  isFile path :=
    match place.find path with
    | .ok (.file _) => true
    | _ => false

end Place
end FileTree
end Multipath
