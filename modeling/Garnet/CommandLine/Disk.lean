import Garnet.Source.File
import Garnet.Source.Utf8

/-!
# Files in a directory

A working directory and what is below it, as a value. Paths are taken from the working directory, and
nothing outside it exists.
-/

namespace Garnet

/-- The files below the working directory, by the parts of their paths. -/
structure Disk where
  files : List (List String × Bytes) := []

/-- What stands at a path. -/
inductive DiskEntry where
  | file (bytes : Bytes)
  | directory
  | nothing

namespace Disk

/-- The parts of a path; those that stand for no step are left out. -/
def parts (path : String) : List String := (path.splitOn "/").filter fun c => c != "" && c != "."

def entry (d : Disk) (at_ : List String) : DiskEntry :=
  match d.files.lookup at_ with
  | some bytes => .file bytes
  | none =>
    if at_.isEmpty || d.files.any fun (p, _) => at_.isPrefixOf p then .directory else .nothing

def inDirectory {α : Type} (d : Disk) (at_ : List String) (f : Except FileFault α) :
    Except FileFault α :=
  match d.entry at_ with
  | .directory => f
  | .file _ => .error .notDirectory
  | .nothing => .error .notFound

def walk (d : Disk) (at_ : List String) : List String → Except FileFault (List String)
  | [] => .ok at_
  | c :: rest =>
    d.inDirectory at_ <|
      if c == "" || c == "." then walk d at_ rest
      else if c == ".." then if at_.isEmpty then .error .notFound else walk d at_.dropLast rest
      else walk d (at_ ++ [c]) rest

def insert (d : Disk) (at_ : List String) (bytes : Bytes) : Disk :=
  { files := (at_, bytes) :: d.files.filter fun (p, _) => p != at_ }

def ofFiles (files : List (String × Bytes)) : Disk :=
  files.foldl (fun d (path, bytes) => d.insert (parts path) bytes) {}

def readBytes (d : Disk) (path : String) : Except FileFault Bytes := do
  if path.startsWith "/" then throw .notFound
  let at_ ← d.walk [] (path.splitOn "/")
  match d.entry at_ with
  | .file bytes => return bytes
  | .directory => throw .isDirectory
  | .nothing => throw .notFound

def readText (d : Disk) (path : String) : Except FileFault String := do
  let bytes ← d.readBytes path
  if Utf8.isValid bytes then return Utf8.decode bytes else throw .notUtf8

def write (d : Disk) (path : String) (bytes : Bytes) : Except FileFault Disk := do
  if path.startsWith "/" then throw .notFound
  let steps := path.splitOn "/"
  let last := steps.getLastD ""
  let at_ ← d.walk [] steps.dropLast
  if last == "" then throw .isDirectory
  d.inDirectory at_ <|
    if last == "." || last == ".." then .error .isDirectory
    else
      match d.entry (at_ ++ [last]) with
      | .directory => .error .isDirectory
      | _ => .ok (d.insert (at_ ++ [last]) bytes)

instance : FileStore (StateM Disk) where
  read path := do return (← get).readText path
  write path text := do
    match (← get).write path (utf8 text) with
    | .ok d =>
      set d
      return .ok ()
    | .error fault => return .error fault

end Disk

end Garnet
