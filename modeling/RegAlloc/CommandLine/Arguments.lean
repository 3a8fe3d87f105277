import RegAlloc.CommandLine.Options
import RegAlloc.Text.Decimal
import RegAlloc.Text.Split

/-!
# Reading arguments

`Request.ofArguments` reads the arguments of the command from left to right. The first thing that
settles the run wins: a refused argument, or a flag that asks for the version or for help. Otherwise
the arguments ask to compile one input file.

An option with a value takes it from the same argument (`--output=x`, `-ox`, `-o=x`) or from the
next one, which then must not start with a dash. Short options may be joined. After `--` every
argument is an input.
-/

namespace RegAlloc.CommandLine

/-- What the arguments ask for, as far as they were read. -/
structure Draft where
  input : Option String := none
  output : Option String := none
  registers : Option Nat := none
  registerNames : Option (List String) := none
  maxSweeps : Option Nat := none
  strict : Bool := false
  globl : Bool := false
  allLive : Bool := false
  verbosity : Nat := 0
deriving DecidableEq, Repr

/-- Options that take a value. -/
inductive Valued where
  | output
  | registers
  | registerNames
  | maxSweeps
deriving DecidableEq, Repr

/-- Options that take no value. -/
inductive Flag where
  | strict
  | globl
  | allLive
  | verbose
  | version
  | help
deriving DecidableEq, Repr

/-- An option of either sort. -/
inductive Switch where
  | valued (option : Valued)
  | flag (flag : Flag)
deriving DecidableEq, Repr

namespace Switch

/-- The option with a long name. -/
def ofLong? : String → Option Switch
  | "output" => some (valued .output)
  | "registers" => some (valued .registers)
  | "reg-names" => some (valued .registerNames)
  | "max-sweeps" => some (valued .maxSweeps)
  | "strict-liveness" => some (flag .strict)
  | "globl" => some (flag .globl)
  | "all-live" => some (flag .allLive)
  | "verbose" => some (flag .verbose)
  | "version" => some (flag .version)
  | "help" => some (flag .help)
  | _ => none

/-- The option with a letter. -/
def ofShort? : Char → Option Switch
  | 'o' => some (valued .output)
  | 'v' => some (flag .verbose)
  | 'V' => some (flag .version)
  | 'h' => some (flag .help)
  | _ => none

end Switch

/-- A count: digits, with a plus sign or not, below `2^64`. -/
def count? (text : String) : Option Nat :=
  let digits :=
    match text.toList with
    | '+' :: digits => digits
    | digits => digits
  if digits.isEmpty || !digits.all Char.isDigit then none
  else
    let n := Text.Decimal.magnitude digits
    if n < 18446744073709551616 then some n else none

namespace Draft

/-- Notes the input. There is one, and it is not empty. -/
def setInput (d : Draft) (text : String) : Option Draft :=
  if d.input.isSome || text == "" then none else some { d with input := some text }

/-- Notes the value of an option. Only lists of names may be given twice; they are joined. -/
def setValue (d : Draft) (option : Valued) (text : String) : Option Draft :=
  match option with
  | .output =>
    if d.output.isSome || text == "" then none else some { d with output := some text }
  | .registers =>
    if d.registers.isSome then none
    else (count? text).map fun n => { d with registers := some n }
  | .registerNames =>
    some { d with registerNames := some (d.registerNames.getD [] ++ Text.split ',' text) }
  | .maxSweeps =>
    if d.maxSweeps.isSome then none
    else (count? text).map fun n => { d with maxSweeps := some n }

/-- Notes a flag, or gives the request that settles the run. Only `verbose` may be given twice. -/
def setFlag (d : Draft) : Flag → Except Request Draft
  | .strict => if d.strict then .error .refused else .ok { d with strict := true }
  | .globl => if d.globl then .error .refused else .ok { d with globl := true }
  | .allLive => if d.allLive then .error .refused else .ok { d with allLive := true }
  | .verbose => .ok { d with verbosity := d.verbosity + 1 }
  | .version => .error .version
  | .help => .error .help

/-- The request of all arguments: an input is needed, and the registers are given by number or by
name. -/
def finish (d : Draft) : Request :=
  match d.input with
  | none => .refused
  | some input =>
    if d.registers.isSome && d.registerNames.isSome then .refused
    else
      .compile
        { input
          output := d.output
          registers := d.registers
          registerNames := d.registerNames
          maxSweeps := d.maxSweeps.getD Liveness.defaultSweeps
          strict := d.strict
          globl := d.globl
          allLive := d.allLive
          verbosity := d.verbosity }

end Draft

/-- Whether an argument reads as an option. A single dash does not. -/
def looksLikeOption (text : String) : Bool := text.toList.head? == some '-' && text != "-"

/-- What one argument does to the draft. -/
inductive Reading where
  | settled (request : Request)
  | noted (draft : Draft)
  /-- the option takes its value from the next argument -/
  | pending (option : Valued) (draft : Draft)

namespace Reading

/-- The reading of a step that may be refused. -/
def ofOption : Option Draft → Reading
  | some d => noted d
  | none => settled .refused

/-- Reads a joined group of short options. -/
def short (d : Draft) : List Char → Reading
  | [] => noted d
  | c :: cs =>
    match Switch.ofShort? c with
    | none => settled .refused
    | some (.flag flag) =>
      match d.setFlag flag with
      | .error request => settled request
      | .ok d => short d cs
    | some (.valued option) =>
      match cs with
      | [] => pending option d
      | '=' :: value => ofOption (d.setValue option (String.ofList value))
      | value => ofOption (d.setValue option (String.ofList value))

/-- Reads a long option without its dashes, and its value if it has one. -/
def long (d : Draft) (text : List Char) : Reading :=
  let name := String.ofList (text.takeWhile (· != '='))
  match Switch.ofLong? name, text.dropWhile (· != '=') with
  | none, _ => settled .refused
  | some (.flag flag), [] =>
    match d.setFlag flag with
    | .error request => settled request
    | .ok d => noted d
  | some (.flag _), _ :: _ => settled .refused
  | some (.valued option), [] => pending option d
  | some (.valued option), _ :: value => ofOption (d.setValue option (String.ofList value))

/-- Reads one argument in front of `--`. -/
def argument (d : Draft) (text : String) : Reading :=
  match text.toList with
  | '-' :: '-' :: name => long d name
  | '-' :: c :: cs => short d (c :: cs)
  | _ => ofOption (d.setInput text)

end Reading

namespace Request

/-- Reads the arguments after `--`. -/
def ofInputs (d : Draft) : List String → Request
  | [] => d.finish
  | text :: texts =>
    match d.setInput text with
    | none => .refused
    | some d => ofInputs d texts

/-- Reads the arguments, after an option that waits for its value if there is one. -/
def ofDraft (d : Draft) (waiting : Option Valued) : List String → Request
  | [] => if waiting.isSome then .refused else d.finish
  | text :: texts =>
    match waiting with
    | some option =>
      if looksLikeOption text then .refused
      else
        match d.setValue option text with
        | none => .refused
        | some d => ofDraft d none texts
    | none =>
      if text = "--" then ofInputs d texts
      else
        match Reading.argument d text with
        | .settled request => request
        | .noted d => ofDraft d none texts
        | .pending option d => ofDraft d (some option) texts

/-- What a list of arguments asks for. -/
def ofArguments (arguments : List String) : Request := ofDraft {} none arguments

end Request

end RegAlloc.CommandLine
