/-!
Access to files: why one cannot be read as text, and the two questions that commands ask about a
path.
-/

namespace Multipath

inductive FileError where
  | missing
  | directory
  | notDirectory
  | denied
  | nameTooLong
  | undecodable
  | other (reason : String)
deriving DecidableEq

def FileError.message : FileError → String
  | missing => "No such file or directory (os error 2)"
  | directory => "Is a directory (os error 21)"
  | notDirectory => "Not a directory (os error 20)"
  | denied => "Permission denied (os error 13)"
  | nameTooLong => "File name too long (os error 36)"
  | undecodable => "stream did not contain valid UTF-8"
  | other reason => reason

/-- Files as a command sees them. -/
structure Files (m : Type → Type) where
  read : String → m (Except FileError ByteArray)
  /-- Whether a path leads to a plain file. -/
  isFile : String → m Bool

end Multipath
