import RegAlloc.CommandLine.Terminal

/-!
# The command

Reads the input file, carries out the plan of the run and writes the output file. Everything that is
decided is decided by `Request.ofArguments` and `Options.plan`.
-/

namespace RegAlloc.CommandLine

/-- The reason behind an error code, which some calls give with its sign reversed. -/
def fileErrorOfCode (code : UInt32) (reason : String) : FileError :=
  match (if code ≤ 0x7fffffff then code else 0 - code).toNat with
  | 2 => .notFound
  | 13 => .permissionDenied
  | 20 => .notDirectory
  | 21 => .isDirectory
  | 36 => .nameTooLong
  | 40 => .tooManyLinks
  | code => .system code reason

/-- The reason why a file could not be read or created. -/
def fileError : IO.Error → FileError
  | .noFileOrDirectory _ code reason => fileErrorOfCode code reason
  | .inappropriateType _ code reason => fileErrorOfCode code reason
  | .permissionDenied _ code reason => fileErrorOfCode code reason
  | .resourceExhausted _ code reason => fileErrorOfCode code reason
  | .invalidArgument _ code reason => fileErrorOfCode code reason
  | .resourceBusy code reason => fileErrorOfCode code reason
  | .hardwareFault code reason => fileErrorOfCode code reason
  | .otherError code reason => fileErrorOfCode code reason
  | e => .system 0 e.toString

/-- Reads a text file. -/
def readInput (path : String) : IO (Except FileError String) := do
  try
    let content ← IO.FS.readBinFile path
    match String.fromUTF8? content with
    | some text => return .ok text
    | none => return .error .invalidText
  catch e => return .error (fileError e)

/-- Carries out a compile run. -/
def Options.execute (o : Options) : IO UInt32 := do
  match o.plan terminal (← readInput o.input) with
  | .fail exit log =>
    IO.eprint log
    return exit.toUInt32
  | .write path text before after =>
    IO.eprint before
    try
      IO.FS.writeBinFile path text.toUTF8
      IO.eprint after
      return 0
    catch e =>
      IO.eprint (o.failureText (.file (fileError e)))
      return 1

end RegAlloc.CommandLine

open RegAlloc.CommandLine in
/-- The command. -/
def main (arguments : List String) : IO UInt32 := do
  match terminal.request arguments with
  | .refused =>
    IO.eprintln "Usage: mavnc [OPTIONS] <INPUT>"
    return 2
  | .version =>
    IO.print versionText
    return 0
  | .help =>
    IO.println "Usage: mavnc [OPTIONS] <INPUT>"
    return 0
  | .compile o => o.execute
