import RegAlloc.Coloring
import RegAlloc.IdSet
import RegAlloc.Program

/-!
# Register allocation

`Program.allocate?` colors a graph whose nodes are the positions of the register variables. Running
out of registers is an ordinary outcome: `Status.failed`. The answer is `none` only where the graph
has a node without a register variable.
-/

namespace RegAlloc

/-- Why there is no coloring. -/
inductive AllocError where
  | insufficientRegisters (remaining palette : Nat)
  | coloringFailed (name : String)
deriving DecidableEq, Repr

def AllocError.message : AllocError → String
  | insufficientRegisters remaining palette =>
    s!"Out of registers: {remaining} variables each have {palette} or more neighbours"
  | coloringFailed name => s!"No free register left for {name}"

/-- A slot for every register variable. -/
structure Coloring where
  /-- the variables in the order of their removal -/
  order : List VarId
  /-- the slots by position -/
  colors : List Slot
deriving DecidableEq, Repr

namespace Coloring

/-- The indices of the slots in use. -/
def used (c : Coloring) : IdSet := .ofList (c.colors.map Slot.index)

/-- Number of different slots in use. -/
def registersUsed (c : Coloring) : Nat := c.used.size

end Coloring

/-- The outcome of an allocation. -/
inductive Status where
  | allocated (coloring : Coloring)
  | failed (error : AllocError)
deriving DecidableEq, Repr

namespace Status

def isSuccess : Status → Bool
  | allocated _ => true
  | failed _ => false

/-- Number of slots in use, none after a failure. -/
def registersUsed : Status → Nat
  | allocated c => c.registersUsed
  | failed _ => 0

/-- The slots of `n` register variables afterwards; a failure leaves none. -/
def slots (n : Nat) : Status → List (Option Slot)
  | allocated c => (List.range n).map fun position => c.colors[position]?
  | failed _ => List.replicate n none

end Status

namespace Program

/-- The slots that selection gives to a stack of positions. -/
def select? (p : Program) (palette : Palette) (g : Graph) (stack : List Nat) :
    Option (Except AllocError (List Slot)) :=
  let s := g.select palette stack
  match s.ending with
  | .complete => some (.ok s.slots)
  | .stuck node => (p.registerName? node).map fun name => .error (.coloringFailed name)
  | .outside _ => none

/-- Colors a graph with the slots of a palette. -/
def allocate? (p : Program) (palette : Palette) (g : Graph) : Option Status :=
  match g.simplify palette.size with
  | .error remaining => some (.failed (.insufficientRegisters remaining palette.size))
  | .ok stack =>
    match p.select? palette g stack with
    | none => none
    | some (.error e) => some (.failed e)
    | some (.ok colors) => (stack.mapM p.registerAt?).map fun order => .allocated ⟨order, colors⟩

end Program

/-- Whether the ends of all edges differ in their slots, up to the first edge that does not. The
answer is `none` for an edge to a position without a register variable. -/
def Graph.differ? (slots : List (Option Slot)) : List (Nat × Nat) → Option Bool
  | [] => some true
  | (a, b) :: edges => do
    let x ← slots[a]?
    let y ← slots[b]?
    if x = y then some false else differ? slots edges

/-- Whether every register variable has a slot of the palette, and interfering ones have different
slots. -/
def Graph.isValidColoring? (g : Graph) (palette : Palette) (slots : List (Option Slot)) :
    Option Bool :=
  if slots.all fun s => s.any palette.contains then differ? slots g.edges else some false

end RegAlloc
