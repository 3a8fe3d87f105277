import RegAlloc.FileTree.Names

/-!
# File trees

Names and the files that they stand for. Reading and creating a file either succeed in full or
change nothing.
-/

namespace RegAlloc

/-- A file, and what the user may do with it. -/
structure File where
  content : ByteArray := .empty
  readable : Bool := true
  writable : Bool := true

/-- The names of a system, and its files by their numbers. -/
structure FileTree where
  names : NameTree := {}
  files : List (FileId × File) := []

namespace FileTree

open NameTree (Place)

/-- The file with a number. -/
def file (t : FileTree) (id : FileId) : File := (t.files.lookup id).getD {}

/-! ### Reading and creating -/

/-- The content of the file at a path. -/
def read (t : FileTree) (path : String) : Except FileError ByteArray :=
  match t.names.locate false path with
  | .error e => .error e
  | .ok (.directory place) =>
    match t.names.directoryAt place with
    | .error e => .error e
    | .ok rights => if rights.readable then .error .isDirectory else .error .permissionDenied
  | .ok (.file _ id) =>
    if (t.file id).readable then .ok (t.file id).content else .error .permissionDenied
  | .ok .null => .ok .empty
  | .ok (.vacant ..) => .error .notFound

/-- The content of the file at a path, as text. -/
def readText (t : FileTree) (path : String) : Except FileError String :=
  match t.read path with
  | .error e => .error e
  | .ok content =>
    match String.fromUTF8? content with
    | some text => .ok text
    | none => .error .invalidText

/-- Gives a file another content. -/
def overwrite (t : FileTree) (id : FileId) (content : ByteArray) : FileTree :=
  { t with files := (id, { t.file id with content }) :: t.files }

/-- Puts a new file at a place. -/
def create (t : FileTree) (place : Place) (content : ByteArray) : FileTree where
  names := t.names.add place t.names.freshId
  files := (t.names.freshId, { content }) :: t.files

/-- Creates the file at a path, or replaces its content. -/
def write (t : FileTree) (path : String) (text : String) : Except FileError FileTree :=
  match t.names.locate true path with
  | .error e => .error e
  | .ok (.directory _) => .error .isDirectory
  | .ok (.file _ id) =>
    if (t.file id).writable then .ok (t.overwrite id text.toUTF8) else .error .permissionDenied
  | .ok .null => .ok t
  | .ok (.vacant directory name) =>
    match t.names.directoryAt directory with
    | .error e => .error e
    | .ok rights =>
      if rights.writable then .ok (t.create (directory ++ [name]) text.toUTF8)
      else .error .permissionDenied

/-! ### Working directories -/

/-- The directories at the root of a system. -/
def systemDirectories : List String :=
  ["bin", "boot", "dev", "etc", "home", "lib", "media", "mnt", "opt", "proc", "root", "run", "sbin",
    "srv", "sys", "tmp", "usr", "var"]

/-- A working directory with some entries, in a system that has the usual directories and the null
device. -/
def namesOfWorkingDirectory (entries : List (Place × NameTree.Entry)) : NameTree :=
  let here := ["tmp", "regalloc"]
  { entries := entries.map (fun e => (here ++ e.1, e.2)) ++
      systemDirectories.map (fun name => ([name], .directory {})) ++ [(["dev", "null"], .null)]
    here }

/-- A working directory in a system, with the given files and, where there is no content, the given
empty directories. -/
def ofWorkingDirectory (entries : List (Place × Option ByteArray)) : FileTree where
  names := namesOfWorkingDirectory <| entries.zipIdx.map fun (e, i) =>
    (e.1, match e.2 with
      | some _ => .file i
      | none => .directory {})
  files := entries.zipIdx.filterMap fun (e, i) => e.2.map fun content => (i, { content })

/-- The content of the file at a place. -/
def contentAt? (t : FileTree) (place : Place) : Option ByteArray :=
  match t.names.entryAt? place with
  | some (.file id) => some (t.file id).content
  | _ => none

/-- The files of the working directory that are new or have another content than before. -/
def changedSince (t before : FileTree) : List (Place × ByteArray) :=
  t.names.entries.filterMap fun e =>
    match e.2 with
    | .file id =>
      let content := (t.file id).content
      if (before.contentAt? e.1).map ByteArray.data = some content.data then none
      else (t.names.fromHere? e.1).map fun place => (place, content)
    | .directory _ | .link _ | .null => none

end FileTree

end RegAlloc
