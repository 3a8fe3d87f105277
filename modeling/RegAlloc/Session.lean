import RegAlloc.Assembly
import RegAlloc.Program.Parser

/-!
# Sessions

A session runs the passes over one program in order: control flow, live sets, interference graph,
allocation. It keeps the latest results, among them the status of the last allocation that came to
an end; the assembly text can be had once that status is a success.
-/

namespace RegAlloc

/-- The choices for one session. -/
structure Config where
  palette : Palette := .standard
  maxSweeps : Nat := Liveness.defaultSweeps
  /-- refuse live sets that did not converge -/
  strict : Bool := false
  rule : Rule := .defLiveOut
  /-- start the document with a line that makes the function visible to other files -/
  globl : Bool := false
deriving DecidableEq

instance : Inhabited Config := ⟨{}⟩

/-- Counters of the passes. -/
structure Stats where
  instructions : Nat := 0
  registerVars : Nat := 0
  memoryVars : Nat := 0
  flowEdges : Nat := 0
  sweeps : Nat := 0
  converged : Bool := false
  interferenceEdges : Nat := 0
  registersUsed : Nat := 0
deriving DecidableEq, Repr

/-- The counters, one on each line. -/
def Stats.render (s : Stats) : String :=
  "Compilation Statistics:\n"
    ++ s!"  Instructions: {s.instructions}\n"
    ++ s!"  Register variables: {s.registerVars}\n"
    ++ s!"  Memory variables: {s.memoryVars}\n"
    ++ s!"  CFG edges: {s.flowEdges}\n"
    ++ s!"  Liveness sweeps: {s.sweeps}" ++ (if s.converged then "\n" else " (not converged)\n")
    ++ s!"  Interference edges: {s.interferenceEdges}\n"
    ++ s!"  Registers used: {s.registersUsed}\n"

/-- Why a session cannot go on. -/
inductive SessionError where
  | flow (error : FlowError)
  | notConverged (sweeps : Nat)
  | notAllocated
  /-- the graph has a node without a register variable -/
  | outOfRange
deriving DecidableEq, Repr

def SessionError.message : SessionError → String
  | flow e => e.message
  | notConverged sweeps => s!"Liveness analysis did not converge after {sweeps} sweeps"
  | notAllocated => "Program has not been allocated successfully, nothing to emit"
  | outOfRange => "Interference graph has a node without a register variable"

/-- A program with the results of the passes. -/
structure Session where
  state : Annotated
  config : Config
  graph : Option Graph := none
  liveness : Option Summary := none
  status : Option Status := none
  stats : Stats := {}
deriving DecidableEq

namespace Session

/-- A session that has run no pass. -/
def ofAnnotated (state : Annotated) (config : Config) : Session where
  state
  config
  stats :=
    { instructions := state.program.size
      registerVars := state.program.registerCount
      memoryVars := state.program.memory.length }

instance : Inhabited Session := ⟨ofAnnotated default {}⟩

/-- The session of a source text. -/
def ofSource (text : String) (config : Config) : Except SourceError Session :=
  (Program.parse text).map fun p => ofAnnotated (.ofProgram p) config

/-! ### Passes -/

/-- Builds the control-flow graph. -/
def buildFlow (s : Session) : Except FlowError Unit × Session :=
  match Annotated.rebuildFlow s.state with
  | .error e state => (.error e, { s with state })
  | .ok flowEdges state => (.ok (), { s with state, stats := { s.stats with flowEdges } })

/-- Sweeps the live sets. -/
def solve (s : Session) : Summary × Session :=
  let (summary, state) := s.state.solve s.config.maxSweeps
  (summary,
    { s with
      state
      liveness := some summary
      stats := { s.stats with sweeps := summary.sweeps, converged := summary.converged } })

/-- Builds the interference graph. -/
def interfere (s : Session) : Session :=
  let graph := s.state.interference s.config.rule
  { s with graph := some graph, stats := { s.stats with interferenceEdges := graph.edgeCount } }

/-- Runs all passes up to the interference graph. An error stops them; what earlier passes found
stays. -/
def analyze (s : Session) : Except SessionError Summary × Session :=
  match s.buildFlow with
  | (.error e, s) => (.error (.flow e), s)
  | (.ok (), s) =>
    let (summary, s) := s.solve
    if !summary.converged && s.config.strict then (.error (.notConverged summary.sweeps), s)
    else (.ok summary, s.interfere)

/-- Colors the interference graph of the last analysis. -/
def color (s : Session) : Except SessionError Status × Session :=
  match s.graph with
  | none => (.error .notAllocated, s)
  | some g =>
    match s.state.allocate? s.config.palette g with
    | none => (.error .outOfRange, s)
    | some (status, state) =>
      (.ok status,
        { s with
          state
          status := some status
          stats := { s.stats with registersUsed := status.registersUsed } })

/-- Runs all passes. Running out of registers is a status, not an error. -/
def allocate (s : Session) : Except SessionError Status × Session :=
  match s.analyze with
  | (.error e, s) => (.error e, s)
  | (.ok _, s) => s.color

/-- Runs all passes and says whether every register variable has a slot. -/
def succeed (s : Session) : Except SessionError Bool × Session :=
  let (result, s) := s.allocate
  (result.map Status.isSuccess, s)

/-! ### Output -/

/-- Whether the last allocation that came to an end succeeded. -/
def isAllocated (s : Session) : Bool := s.status.any Status.isSuccess

/-- The assembly text of the current annotations. -/
def assembly (s : Session) : String := s.state.assembly s.config.palette s.config.globl

/-- The assembly text, once an allocation has succeeded. -/
def output (s : Session) : Except SessionError String :=
  if s.isAllocated then .ok s.assembly else .error .notAllocated

end Session

end RegAlloc
