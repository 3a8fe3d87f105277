import RegAlloc.Annotated
import RegAlloc.Program.Parser

/-!
# Journals

What the passes report of their work. A journal is a list of records, each with a level; a reader
sees those at a chosen level or above. The passes themselves write nothing: each journal is computed
from the input and the trace of its pass.

A record that names the register variable at a position without one cannot be written. Reading stops
in front of it.
-/

namespace RegAlloc

/-- How important a record is, the most important first. -/
inductive Level where
  | error
  | warn
  | info
  | debug
  | trace
deriving DecidableEq, Repr

namespace Level

def rank : Level → Nat
  | error => 0
  | warn => 1
  | info => 2
  | debug => 3
  | trace => 4

def name : Level → String
  | error => "ERROR"
  | warn => "WARN"
  | info => "INFO"
  | debug => "DEBUG"
  | trace => "TRACE"

/-- Whether a reader of level `limit` sees records of this level. -/
def isShown (level limit : Level) : Bool := decide (level.rank ≤ limit.rank)

end Level

/-- One record; without a text it cannot be written. -/
structure Record where
  level : Level
  text? : Option String
deriving DecidableEq, Repr

/-- The records of some passes, in order. -/
abbrev Journal := List Record

/-- A record with its text. -/
def Level.record (level : Level) (text : String) : Record := ⟨level, some text⟩

namespace Journal

/-- What a reader of level `limit` sees, and whether the reading came to the end. -/
def read (limit : Level) : Journal → List (Level × String) × Bool
  | [] => ([], true)
  | r :: rs =>
    if r.level.isShown limit then
      match r.text? with
      | none => ([], false)
      | some text =>
        let (seen, ended) := read limit rs
        ((r.level, text) :: seen, ended)
    else read limit rs

end Journal

/-! ### Reading a source text -/

/-- The journal of `tokenize`. -/
def tokenizeJournal (text : String) : Journal :=
  match tokenize text with
  | .ok tokens => [Level.trace.record s!"Lexed {tokens.length} tokens"]
  | .error _ => []

/-- The journal of `Program.parse`. -/
def Program.parseJournal (text : String) : Journal :=
  tokenizeJournal text ++
    match Program.parse text with
    | .ok p =>
      [Level.debug.record (s!"Parsed {p.size} instructions, {p.registerCount} registers, "
        ++ s!"{p.memory.length} memory variables")]
    | .error _ => []

/-! ### Control flow -/

namespace Program

/-- The warning for a branch to an entry marker that nothing follows. -/
def deadBranchRecords (p : Program) (i : InstId) : Journal :=
  match p.branchLabel? i, p.branchTarget? i with
  | some _, .ok none =>
    [Level.warn.record
      s!"Branch at {(p.instr i).position} targets the function entry but no instruction follows it"]
  | _, _ => []

/-- The record of a branch edge. -/
def branchRecords (p : Program) (i : InstId) : Journal :=
  match p.branchTarget? i with
  | .ok (some target) =>
    [Level.trace.record s!"branch {(p.instr i).position} -> {(p.instr target).position}"]
  | _ => []

/-- The journal of `Program.flow`. Warnings stop at the first label that nothing carries. -/
def flowJournal (p : Program) : Journal :=
  match p.checkEntry with
  | .error _ => []
  | .ok _ =>
    let resolved := (List.range p.size).takeWhile fun i => (p.branchTarget? i).isOk
    resolved.flatMap p.deadBranchRecords ++
      match p.flow with
      | .error _ => []
      | .ok f =>
        (List.range p.size).flatMap p.branchRecords ++
          [Level.debug.record s!"CFG built: {p.size} instructions, {f.edgeCount} edges"]

end Program

/-! ### Liveness -/

/-- The journal of solving, which its summary determines: all sweeps but a converged last one
changed something. -/
def Summary.journal (s : Summary) : Journal :=
  ((List.range s.sweeps).map fun i =>
    Level.trace.record
      s!"liveness sweep {i + 1}: changed = {!(s.converged && i + 1 == s.sweeps)}")
  ++ [if s.converged then Level.debug.record s!"Liveness converged after {s.sweeps} sweeps"
      else Level.warn.record
        s!"Liveness stopped after {s.sweeps} sweeps without reaching a fixed point"]

/-! ### Interference -/

/-- The journal of building an interference graph. -/
def Graph.journal (g : Graph) (rule : Rule) : Journal :=
  [Level.debug.record s!"Interference graph ({rule.name}): {g.size} nodes, {g.edgeCount} edges"]

/-! ### Allocation -/

/-- The record of a removal. -/
def Removal.record (r : Removal) : Record :=
  Level.trace.record s!"simplify: remove position {r.node} (degree {r.degree})"

/-- The journal of simplification. -/
def Graph.simplifyJournal (g : Graph) (k : Nat) : Journal :=
  (g.simplifyTrace k).1.map Removal.record

/-- The closing record of an allocation. -/
def Status.record (s : Status) (palette : Palette) : Record :=
  match s with
  | .allocated c =>
    Level.info.record
      s!"Allocated {c.colors.length} variables into {c.registersUsed} of {palette.size} registers"
  | .failed e => Level.info.record s!"Register allocation failed: {e.message}"

namespace Program

/-- The record of a pick, which names the variable at the position. -/
def pickRecord (p : Program) (palette : Palette) (pick : Pick) : Record :=
  ⟨.trace, (p.registerName? pick.node).map fun name =>
    "select: " ++ name ++ " -> " ++ (palette.name? pick.slot).getD "?"⟩

/-- The picks that are reported. The first position on a stack is reported with the first slot even
when it lies outside the graph. -/
def reportedPicks (s : Selection) : List Pick :=
  match s.picks, s.ending with
  | [], .outside node => [⟨node, ⟨0⟩⟩]
  | picks, _ => picks

/-- The journal of selection. -/
def selectJournal (p : Program) (palette : Palette) (g : Graph) (stack : List Nat) : Journal :=
  (reportedPicks (g.select palette stack)).map (p.pickRecord palette)

/-- The journal of an allocation. -/
def allocateJournal (p : Program) (palette : Palette) (g : Graph) : Journal :=
  g.simplifyJournal palette.size ++
    (match g.simplify palette.size with
      | .ok stack => p.selectJournal palette g stack
      | .error _ => []) ++
    ((p.allocate? palette g).map fun status => status.record palette).toList

end Program

end RegAlloc
