import RegAlloc.Flow

/-!
# Liveness

A register is live where its value may still be read. The live sets solve, for each instruction,
the two equations that `Flow.transfer` states. A sweep visits the instructions from the last to the
first and brings each up to date with the current sets. Sweeps are repeated until one changes
nothing, or until as many as allowed were made.
-/

namespace RegAlloc

/-- The registers that are live before and after an instruction. -/
structure LiveSets where
  liveIn : IdSet := ∅
  liveOut : IdSet := ∅
deriving DecidableEq

instance : Inhabited LiveSets := ⟨{}⟩

/-- Live sets, one pair for each instruction. -/
structure Liveness where
  sets : Array LiveSets := #[]
deriving DecidableEq

namespace Liveness

/-- The live sets of `n` instructions before the first sweep. -/
def blank (n : Nat) : Liveness := ⟨Array.replicate n {}⟩

/-- The live sets of instruction `i`. -/
def get (l : Liveness) (i : InstId) : LiveSets := l.sets.getD i {}

/-- Number of instructions. -/
def size (l : Liveness) : Nat := l.sets.size

/-- Replaces the live sets of instruction `i`. -/
def set (l : Liveness) (i : InstId) (s : LiveSets) : Liveness := ⟨l.sets.setIfInBounds i s⟩

/-- Number of sweeps when none is asked for. -/
def defaultSweeps : Nat := 10

end Liveness

/-- Live sets on the way through a sweep, and whether the sweep has changed them. -/
structure Sweep where
  live : Liveness
  changed : Bool := false
deriving DecidableEq

/-- The outcome of solving: the sweeps made, and whether the last one changed nothing. -/
structure Summary where
  sweeps : Nat
  converged : Bool
deriving DecidableEq, Repr

namespace Flow

/-- The right-hand sides of the equations of instruction `i`: what is live after it is live before
some successor, and what is live before it is read by it or live after it and not written by it. -/
def transfer (f : Flow) (l : Liveness) (i : InstId) : LiveSets :=
  let out := IdSet.unions ((f.node i).succs.toList.map fun s => (l.get s).liveIn)
  ⟨(out \ (f.node i).defs) ∪ (f.node i).uses, out⟩

/-- Brings instruction `i` up to date. -/
def visit (f : Flow) (s : Sweep) (i : InstId) : Sweep :=
  if s.live.get i = f.transfer s.live i then s else ⟨s.live.set i (f.transfer s.live i), true⟩

/-- Visits all instructions from the last to the first. -/
def sweep (f : Flow) (l : Liveness) : Sweep :=
  (List.range l.size).reverse.foldl f.visit ⟨l, false⟩

/-- Makes up to `cap` sweeps after `made` ones. -/
def solveFrom (f : Flow) : (cap made : Nat) → Liveness → Summary × Liveness
  | 0, made, l => (⟨made, false⟩, l)
  | cap + 1, made, l =>
    let s := f.sweep l
    if s.changed then f.solveFrom cap (made + 1) s.live else (⟨made + 1, true⟩, s.live)

/-- Makes up to `cap` sweeps, starting from the given live sets. -/
def solve (f : Flow) (cap : Nat) (l : Liveness) : Summary × Liveness := f.solveFrom cap 0 l

/-- Whether the equations hold for every instruction. -/
def isFixedPoint (f : Flow) (l : Liveness) : Bool :=
  (List.range l.size).all fun i => decide (l.get i = f.transfer l i)

end Flow

end RegAlloc
