import RegAlloc.CommandLine.Arguments
import RegAlloc.CommandLine.Run
import RegAlloc.Text.Control

/-!
# The command at a terminal

The interface that the command has when it is run: arguments are read by `Request.ofArguments`, and
a record is shown with its level in front.
-/

namespace RegAlloc.CommandLine

/-- A record as it is shown: its level, then its lines, those after the first indented. Control
sequences are left out, so that one that is not closed can take the line feed at the end with it. -/
def recordText (level : Level) (text : String) : String :=
  let lines := "\n    ".intercalate (Text.split '\n' text)
  Text.Control.strip s!"[{level.name}] {lines}\n"

/-- The interface at a terminal. -/
def terminal : Interface where
  request := Request.ofArguments
  showRecord := recordText

end RegAlloc.CommandLine
