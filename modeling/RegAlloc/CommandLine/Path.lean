/-!
# Extensions of paths

The extension of a file name is what stands after its last dot, unless that dot is its first
character. A name without one is all stem.
-/

namespace RegAlloc.CommandLine.Path

/-- The part of a path up to its last slash. -/
def directory (path : List Char) : List Char := (path.reverse.dropWhile (· != '/')).reverse

/-- The part of a path after its last slash. -/
def fileName (path : List Char) : List Char := (path.reverse.takeWhile (· != '/')).reverse

/-- A file name without its extension. -/
def stem (name : List Char) : List Char :=
  match (name.reverse.dropWhile (· != '.')).tail.reverse with
  | [] => name
  | stem => stem

/-- Replaces the extension of the file name of a path, or adds one. A name that becomes `..` when
its extension is taken off names the directory above and gets none. -/
def withExtension (path extension : List Char) : List Char :=
  let base := directory path ++ stem (fileName path)
  if stem (fileName path) = ['.'] then base ++ ['.'] else base ++ '.' :: extension

example : String.ofList (withExtension "a.b.c".toList ['s']) = "a.b.s" := by decide
example : String.ofList (withExtension "d.e/in".toList ['s']) = "d.e/in.s" := by decide
example : String.ofList (withExtension ".hidden".toList ['s']) = ".hidden.s" := by decide
example : String.ofList (withExtension "in.".toList ['s']) = "in.s" := by decide

end RegAlloc.CommandLine.Path
