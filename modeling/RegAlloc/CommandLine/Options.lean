import RegAlloc.Journal
import RegAlloc.Session
import RegAlloc.Text.Blank

/-!
# Command-line options

What the arguments of the command can ask for, and the session configuration of a request to
compile.
-/

namespace RegAlloc.CommandLine

/-- A request to compile. -/
structure Options where
  input : String
  output : Option String
  registers : Option Nat
  registerNames : Option (List String)
  maxSweeps : Nat
  strict : Bool
  globl : Bool
  allLive : Bool
  verbosity : Nat
deriving DecidableEq, Repr

/-- What the arguments ask for. -/
inductive Request where
  | refused
  | version
  | help
  | compile (options : Options)
deriving DecidableEq, Repr

namespace Options

/-- The palette that the options name. -/
def palette (o : Options) : Except PaletteError Palette :=
  match o.registerNames, o.registers with
  | some names, _ =>
    Palette.ofNames (names.map fun name => String.ofList (Text.trimBlank name.toList))
  | none, some k => Palette.ofSize k
  | none, none => .ok .standard

/-- The session configuration of the options. -/
def config (o : Options) : Except PaletteError Config :=
  o.palette.map fun palette =>
    { palette
      maxSweeps := o.maxSweeps
      strict := o.strict
      rule := if o.allLive then .allLive else .defLiveOut
      globl := o.globl }

/-- The level of the records that are shown. -/
def level (o : Options) : Level :=
  match o.verbosity with
  | 0 => .warn
  | 1 => .info
  | 2 => .debug
  | _ => .trace

end Options

end RegAlloc.CommandLine
