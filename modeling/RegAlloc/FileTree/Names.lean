import RegAlloc.Text.Split

/-!
# Names of files

The names of a system: what stands at each place, and the directory in which a command runs. A path
is a text of names divided by slashes. It starts at the root if its first character is a slash, and
at the working directory otherwise; `.` stands for the same directory and `..` for the one above,
which for the root is itself. A file is known by a number. Two names with the same number are hard
links to one file. A symbolic link holds a path, which is followed from the directory of the link; a
walk follows a limited number of them. Names and paths have a greatest length in bytes.
-/

namespace RegAlloc

/-- Why a file cannot be read or created. -/
inductive FileError where
  | notFound
  | permissionDenied
  | notDirectory
  | isDirectory
  | nameTooLong
  | tooManyLinks
  | invalidText
  /-- any other reason that the operating system gives -/
  | system (code : Nat) (reason : String)
deriving DecidableEq, Repr

def FileError.message : FileError → String
  | notFound => "I/O error: No such file or directory (os error 2)"
  | permissionDenied => "I/O error: Permission denied (os error 13)"
  | notDirectory => "I/O error: Not a directory (os error 20)"
  | isDirectory => "I/O error: Is a directory (os error 21)"
  | nameTooLong => "I/O error: File name too long (os error 36)"
  | tooManyLinks => "I/O error: Too many levels of symbolic links (os error 40)"
  | invalidText => "I/O error: stream did not contain valid UTF-8"
  | system code reason => s!"I/O error: {reason} (os error {code})"

/-- The number by which a file is known, whatever its names. -/
abbrev FileId := Nat

namespace NameTree

/-- What the user may do in a directory. -/
structure Rights where
  readable : Bool := true
  writable : Bool := true
  searchable : Bool := true
deriving DecidableEq, Repr

/-- What stands at a place in the tree. -/
inductive Entry where
  | file (id : FileId)
  | directory (rights : Rights)
  /-- a symbolic link, with the path that it holds -/
  | link (path : String)
  /-- a device that is empty to a reader and forgets what is written -/
  | null
deriving DecidableEq, Repr

/-- A place in the tree: the names from the root down. -/
abbrev Place := List String

end NameTree

/-- The entries of a tree, and a working directory. A directory that holds something need not be
listed, and no more need the working directory. -/
structure NameTree where
  entries : List (NameTree.Place × NameTree.Entry) := []
  here : NameTree.Place := []
deriving DecidableEq, Repr

namespace NameTree

/-- Largest number of bytes in a name. -/
def maxNameLength : Nat := 255

/-- Largest number of bytes in a path. -/
def maxPathLength : Nat := 4095

/-- Largest number of symbolic links that are followed for one path. -/
def maxLinks : Nat := 40

/-- Whether a place lies above an entry or above the working directory, or is one of these. -/
def holdsSomething (t : NameTree) (place : Place) : Bool :=
  place.isPrefixOf t.here || t.entries.any fun e => place.isPrefixOf e.1

/-- What stands at a place. A place that is not listed and holds something is a directory. -/
def entryAt? (t : NameTree) (place : Place) : Option Entry :=
  match t.entries.find? fun e => e.1 == place with
  | some e => some e.2
  | none => if t.holdsSomething place then some (.directory {}) else none

/-- What the user may do in the directory at a place. -/
def directoryAt (t : NameTree) (place : Place) : Except FileError Rights :=
  match t.entryAt? place with
  | none => .error .notFound
  | some (.directory rights) => .ok rights
  | some _ => .error .notDirectory

/-- Looks for a name in a directory. -/
def lookup (t : NameTree) (directory : Place) (name : String) : Except FileError (Option Entry) :=
  if maxNameLength < name.utf8ByteSize then .error .nameTooLong
  else .ok (t.entryAt? (directory ++ [name]))

/-! ### Paths -/

/-- The place where a path starts that is followed from a directory. -/
def origin (directory : Place) (path : String) : Place :=
  if path.toList.head? = some '/' then [] else directory

/-- The names in a path. -/
def namesIn (path : String) : List String := (Text.split '/' path).filter (· != "")

/-- A slash at the end of a path asks for a directory. -/
def asksDirectory (path : String) : Bool := path.toList.getLast? == some '/'

/-- Where a path leads. -/
inductive Target where
  | directory (place : Place)
  | file (place : Place) (id : FileId)
  | null
  /-- a name that nothing has in a directory -/
  | vacant (directory : Place) (name : String)
deriving DecidableEq, Repr

/-- Where a walk without following links ends: at a target, or at a link, with the names that are
then to be followed from a place and whether they are to lead to a directory. -/
inductive Stop where
  | target (target : Target)
  | link (place : Place) (names : List String) (asks : Bool)
deriving DecidableEq, Repr

/-- The end of a walk at the last name, by the entry that has it. -/
def stopAt (asks : Bool) (directory : Place) (name : String) : Option Entry → Except FileError Stop
  | none => .ok (.target (.vacant directory name))
  | some (.directory _) => .ok (.target (.directory (directory ++ [name])))
  | some (.link path) =>
    .ok (.link (origin directory path) (namesIn path) (asks || asksDirectory path))
  | some (.file id) =>
    if asks then .error .notDirectory else .ok (.target (.file (directory ++ [name]) id))
  | some .null => if asks then .error .notDirectory else .ok (.target .null)

/-- Looks for the last name. No file is created under a name that asks for a directory. -/
def arrive (t : NameTree) (creating asks : Bool) (directory : Place) (name : String) :
    Except FileError Stop :=
  if creating && asks then .error .isDirectory
  else
    match t.lookup directory name with
    | .error e => .error e
    | .ok found => stopAt asks directory name found

/-- Follows names from a place up to the first link. -/
def walk (t : NameTree) (creating asks : Bool) : Place → List String → Except FileError Stop
  | place, [] => .ok (.target (.directory place))
  | place, name :: rest =>
    match t.directoryAt place with
    | .error e => .error e
    | .ok rights =>
      if !rights.searchable then .error .permissionDenied
      else if name = "." then t.walk creating asks place rest
      else if name = ".." then t.walk creating asks place.dropLast rest
      else if rest = [] then t.arrive creating asks place name
      else
        match t.lookup place name with
        | .error e => .error e
        | .ok none => .error .notFound
        | .ok (some (.directory _)) => t.walk creating asks (place ++ [name]) rest
        | .ok (some (.link path)) => .ok (.link (origin place path) (namesIn path ++ rest) asks)
        | .ok (some _) => .error .notDirectory

/-- Follows names from a place, and up to `links` symbolic links on the way. -/
def resolve (t : NameTree) (creating : Bool) (links : Nat) (place : Place) (names : List String)
    (asks : Bool) : Except FileError Target :=
  match t.walk creating asks place names with
  | .error e => .error e
  | .ok (.target target) => .ok target
  | .ok (.link place names asks) =>
    match links with
    | 0 => .error .tooManyLinks
    | links + 1 => t.resolve creating links place names asks

/-- Where a path leads, to a reader or to one who creates a file. -/
def locate (t : NameTree) (creating : Bool) (path : String) : Except FileError Target :=
  if path = "" then .error .notFound
  else if maxPathLength < path.utf8ByteSize then .error .nameTooLong
  else t.resolve creating maxLinks (origin t.here path) (namesIn path) (asksDirectory path)

/-! ### New files -/

/-- A number above that of every file. -/
def freshId (t : NameTree) : FileId :=
  t.entries.foldr (fun e fresh =>
    match e.2 with
    | .file id => max (id + 1) fresh
    | .directory _ | .link _ | .null => fresh) 0

/-- Gives a file a name. -/
def add (t : NameTree) (place : Place) (id : FileId) : NameTree :=
  { t with entries := t.entries ++ [(place, .file id)] }

/-- A place as seen from the working directory, if it lies in there. -/
def fromHere? (t : NameTree) (place : Place) : Option Place :=
  if t.here.isPrefixOf place then some (place.drop t.here.length) else none

end NameTree

end RegAlloc
