import RegAlloc.CommandLine.Options
import RegAlloc.CommandLine.Path
import RegAlloc.Session.Output

/-!
# Running the command

`Options.plan` does the work of a compile run between reading the input and writing the output;
`run` puts it to work on a file tree. The order is: read the input, build the palette, parse, run
the passes, write. The first failure ends the run and leaves all files as they were. How arguments
are read and how records are shown is left to an `Interface`.
-/

namespace RegAlloc.CommandLine

/-- The parts of the command that are no part of the compiler. -/
structure Interface where
  /-- What a list of arguments asks for. -/
  request : List String → Request
  /-- A record as it is shown. -/
  showRecord : Level → String → String

/-- Why a run fails. -/
inductive Failure where
  | file (error : FileError)
  | palette (error : PaletteError)
  | source (error : SourceError)
  | session (error : SessionError)
deriving DecidableEq, Repr

namespace Failure

def message : Failure → String
  | file e => e.message
  | palette e => e.message
  | source e => e.message
  | session e => e.message

/-- A run that cannot lay out its palette is broken off. All other failures are reported. -/
def isPanic : Failure → Bool
  | palette .outOfSpace => true
  | _ => false

/-- The exit code of a run that fails. -/
def exit (failure : Failure) : Nat := if failure.isPanic then 101 else 1

end Failure

/-- What the command is about to do once the input has been read. -/
inductive Plan where
  /-- show `log` and end the run -/
  | fail (exit : Nat) (log : String)
  /-- show `before`, write the file and, once it is written, show `after` -/
  | write (path text : String) (before after : String)
deriving DecidableEq, Repr

namespace Options

/-- Where the output goes: beside the input unless a path is given. -/
def outputPath (o : Options) : String :=
  o.output.getD (String.ofList (Path.withExtension o.input.toList ['s']))

/-- The records of a journal that are shown. -/
def log (o : Options) (ui : Interface) (journal : Journal) : String :=
  String.join ((journal.read o.level).1.map fun (level, text) => ui.showRecord level text)

/-- What is shown of a failure. -/
def failureText (o : Options) (failure : Failure) : String :=
  if failure.isPanic then failure.message ++ "\n" else s!"Error: {o.input}: {failure.message}\n"

/-- The end of a run that fails. -/
def fail (o : Options) (log : String) (failure : Failure) : Plan :=
  .fail failure.exit (log ++ o.failureText failure)

/-- The record of the counters. -/
def statsText (o : Options) (ui : Interface) (s : Session) : String :=
  o.log ui [Level.info.record s.stats.render]

/-- The work between reading the input and writing the output. -/
def plan (o : Options) (ui : Interface) (source : Except FileError String) : Plan :=
  match source with
  | .error e => o.fail "" (.file e)
  | .ok text =>
    match o.config with
    | .error e => o.fail "" (.palette e)
    | .ok config =>
      match Session.ofSource text config with
      | .error e => o.fail (o.log ui (Program.parseJournal text)) (.source e)
      | .ok s =>
        let log := o.log ui (Program.parseJournal text ++ s.allocateJournal)
        match s.allocate with
        | (.error e, _) => o.fail log (.session e)
        | (.ok (.failed e), s) =>
          .fail 1
            (log ++ s!"Error: register allocation failed: {e.message}\n" ++ o.statsText ui s)
        | (.ok (.allocated _), s) =>
          .write o.outputPath s.assembly log
            (o.log ui [writtenRecord o.outputPath] ++ o.statsText ui s)

end Options

/-- The outcome of a run: exit code, standard output, standard error, and files. -/
structure Outcome where
  exit : Nat
  stdout : String := ""
  stderr : String := ""
  files : FileTree

/-- The text for a request of the version. -/
def versionText : String := "mavnc 0.1.0\n"

/-- Compiles an input of a file tree. -/
def Options.run (o : Options) (ui : Interface) (files : FileTree) : Outcome :=
  match o.plan ui (files.readText o.input) with
  | .fail exit log => { exit, stderr := log, files }
  | .write path text before after =>
    match files.write path text with
    | .error e =>
      let failure := .file e
      { exit := failure.exit, stderr := before ++ o.failureText failure, files }
    | .ok files => { exit := 0, stderr := before ++ after, files }

/-- Runs the command in a directory that holds `files`. -/
def Interface.run (ui : Interface) (arguments : List String) (files : FileTree) : Outcome :=
  match ui.request arguments with
  | .refused => { exit := 2, files }
  | .version => { exit := 0, stdout := versionText, files }
  | .help => { exit := 0, files }
  | .compile o => o.run ui files

end RegAlloc.CommandLine
