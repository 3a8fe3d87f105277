import RegAlloc.Graph
import RegAlloc.Liveness

/-!
# Interference

Two registers interfere if they must not share a slot. Under `defLiveOut`, a register that an
instruction writes and that is live after it interferes with all others live after it. Under
`allLive`, any two registers that are live together interfere.
-/

namespace RegAlloc

/-- Which pairs of live registers interfere. -/
inductive Rule where
  | defLiveOut
  | allLive
deriving DecidableEq, Repr

def Rule.name : Rule → String
  | defLiveOut => "DefLiveOut"
  | allLive => "AllLive"

namespace Graph

/-- Joins a node to each of some nodes. -/
def joinEach (g : Graph) (a : Nat) (bs : List Nat) : Graph := bs.foldl (fun g b => g.addEdge a b) g

/-- Joins any two of some nodes. -/
def joinAll (g : Graph) : List Nat → Graph
  | [] => g
  | a :: as => (g.joinEach a as).joinAll as

end Graph

/-- Joins the nodes that interfere at one instruction, out of those that it writes and those that
are live before and after it. -/
def Rule.join (rule : Rule) (defs liveIn liveOut : List Nat) (g : Graph) : Graph :=
  match rule with
  | .defLiveOut =>
    (defs.filter fun d => decide (d ∈ liveOut)).foldl (fun g d => g.joinEach d liveOut) g
  | .allLive => (g.joinAll liveIn).joinAll liveOut

namespace Program

/-- The positions of the registers in a set. -/
def positions (p : Program) (s : IdSet) : List Nat := s.toList.filterMap fun v => (p.var v).position

/-- Joins the registers that interfere at instruction `i`. -/
def interfereAt (p : Program) (f : Flow) (l : Liveness) (rule : Rule) (g : Graph) (i : InstId) :
    Graph :=
  rule.join (p.positions (f.node i).defs) (p.positions (l.get i).liveIn)
    (p.positions (l.get i).liveOut) g

/-- The graph of the registers that interfere, by position. -/
def interference (p : Program) (f : Flow) (l : Liveness) (rule : Rule) : Graph :=
  (List.range p.size).foldl (p.interfereAt f l rule) (Graph.empty p.registerCount)

end Program

end RegAlloc
