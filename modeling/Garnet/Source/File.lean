/-!
# Files

Access to files, in whatever world a program runs, and why it fails.
-/

namespace Garnet

/-- Why a file cannot be used. -/
inductive FileFault where
  | notFound
  | denied
  | notDirectory
  | isDirectory
  | notUtf8
  | other (text : String)
deriving DecidableEq, Repr

def FileFault.message : FileFault → String
  | .notFound => "No such file or directory (os error 2)"
  | .denied => "Permission denied (os error 13)"
  | .notDirectory => "Not a directory (os error 20)"
  | .isDirectory => "Is a directory (os error 21)"
  | .notUtf8 => "stream did not contain valid UTF-8"
  | .other text => text

/-- A file that cannot be read or written. -/
inductive FileCause where
  | unreadable (path : String) (fault : FileFault)
  | unwritable (path : String) (fault : FileFault)
deriving DecidableEq, Repr

def FileCause.message : FileCause → String
  | .unreadable path fault => "cannot read '" ++ path ++ "': " ++ fault.message
  | .unwritable path fault => "cannot write '" ++ path ++ "': " ++ fault.message

/-- A world with text files. -/
class FileStore (m : Type → Type) where
  /-- The text of a file. -/
  read (path : String) : m (Except FileFault String)
  /-- Replace the text of a file, which need not exist. -/
  write (path text : String) : m (Except FileFault Unit)

end Garnet
