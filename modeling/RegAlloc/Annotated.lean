import RegAlloc.Allocation
import RegAlloc.Interference

/-!
# Annotated programs

A program with what the passes have found out about it so far: control flow, live sets, and the
slots of its register variables. Each pass writes its own annotation and leaves the program alone.
-/

namespace RegAlloc

/-- A program with its annotations. Slots are listed by register position. -/
structure Annotated where
  program : Program
  flow : Flow
  live : Liveness
  slots : List (Option Slot)
deriving DecidableEq

namespace Annotated

/-- A program before any pass. -/
def ofProgram (p : Program) : Annotated :=
  ⟨p, .blank p.size, .blank p.size, List.replicate p.registerCount none⟩

instance : Inhabited Annotated := ⟨ofProgram {}⟩

/-- The slot of a variable; only registers have one. -/
def slotOf (a : Annotated) (v : VarId) : Option Slot :=
  (a.program.var v).position.bind fun position => a.slots[position]?.join

/-! ### Control flow -/

/-- Drops all edges. -/
def clearEdges (a : Annotated) : Annotated :=
  { a with
    flow := ⟨a.program.instrs.mapIdx fun i _ => { a.flow.node i with succs := ∅, preds := ∅ }⟩ }

/-- Finds out which registers each instruction reads and writes. -/
def computeUses (a : Annotated) : Annotated :=
  { a with
    flow := ⟨a.program.instrs.mapIdx fun i instr =>
      { a.flow.node i with
        uses := a.program.registersOf instr.src, defs := a.program.registersOf instr.dst }⟩ }

/-- Adds an edge. -/
def link (a : Annotated) (edge : InstId × InstId) : Annotated :=
  { a with flow := a.flow.link edge }

/-- Adds the edges that leave the instructions, given where each of them may branch to. -/
def linkTargets (targets : List (Option InstId)) : EStateM FlowError Annotated Unit := do
  let p := (← get).program
  ((List.range p.size).zip targets).forM fun (i, target) =>
    (p.edgesFrom i target).forM fun edge => modify fun a => link a edge

/-- Builds the control-flow graph anew and counts its edges. An error comes before the first change
and leaves the annotations that the program has. -/
def rebuildFlow : EStateM FlowError Annotated Nat := do
  ofExcept (← get).program.checkEntry
  let targets ← ofExcept (← get).program.branchTargets
  modify clearEdges
  modify computeUses
  linkTargets targets
  return (← get).flow.edgeCount

/-- The program with its new control-flow graph. -/
def buildFlow (a : Annotated) : Except FlowError Annotated :=
  match rebuildFlow a with
  | .ok _ built => .ok built
  | .error e _ => .error e

/-! ### The other passes -/

/-- Sweeps the live sets, starting from those that the program has. -/
def solve (a : Annotated) (cap : Nat) : Summary × Annotated :=
  let (summary, live) := a.flow.solve cap a.live
  (summary, { a with live })

/-- The interference graph of the current live sets. -/
def interference (a : Annotated) (rule : Rule) : Graph :=
  a.program.interference a.flow a.live rule

/-- Whether the live sets solve their equations. -/
def isFixedPoint (a : Annotated) : Bool := a.flow.isFixedPoint a.live

/-- Colors a graph and writes the slots down. A failure leaves no slot. -/
def allocate? (a : Annotated) (palette : Palette) (g : Graph) : Option (Status × Annotated) :=
  (a.program.allocate? palette g).map fun status =>
    (status, { a with slots := status.slots a.program.registerCount })

/-- Whether the slots are a valid coloring of a graph. -/
def isValidColoring? (a : Annotated) (palette : Palette) (g : Graph) : Option Bool :=
  g.isValidColoring? palette a.slots

end Annotated

end RegAlloc
