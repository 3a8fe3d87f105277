import RegAlloc.FileTree
import RegAlloc.Session.Journal

/-!
# Output of sessions

Writes the assembly text of a session to a file.
-/

namespace RegAlloc

/-- Why the output of a session was not written. -/
inductive OutputError where
  | session (error : SessionError)
  | file (error : FileError)
deriving DecidableEq, Repr

def OutputError.message : OutputError → String
  | session e => e.message
  | file e => e.message

/-- The record of a file that was written. -/
def writtenRecord (path : String) : Record := Level.info.record ("Wrote " ++ path)

namespace Session

/-- Writes the assembly text to a file, once an allocation has succeeded. -/
def write (s : Session) (t : FileTree) (path : String) : Except OutputError FileTree := do
  let text ← s.output.mapError .session
  (t.write path text).mapError .file

/-- The journal of `write`. -/
def writeJournal (s : Session) (t : FileTree) (path : String) : Journal :=
  match s.write t path with
  | .ok _ => [writtenRecord path]
  | .error _ => []

end Session

end RegAlloc
