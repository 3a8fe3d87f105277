import RegAlloc.IdSet
import RegAlloc.Program

/-!
# Control flow

The control-flow graph of a program, with the registers that each instruction reads and writes.
An instruction goes on to the next one, unless it always branches or the next one is the entry
marker. A branch also goes to the instruction that carries its label; a branch to the entry marker
goes to the instruction after the marker.
-/

namespace RegAlloc

/-- Why a program has no control-flow graph. -/
inductive FlowError where
  | missingEntry
  | duplicateEntry (count : Nat)
  | labelNotFound (name : String)
deriving DecidableEq, Repr

def FlowError.message : FlowError → String
  | missingEntry => "Program has no function entry"
  | duplicateEntry count => s!"Program has {count} function entries, expected exactly one"
  | labelNotFound name => s!"No instruction with label {name} exists"

/-- One instruction in the control-flow graph. -/
structure FlowNode where
  uses : IdSet := ∅
  defs : IdSet := ∅
  succs : IdSet := ∅
  preds : IdSet := ∅
deriving DecidableEq

instance : Inhabited FlowNode := ⟨{}⟩

/-- A control-flow graph, one node for each instruction. -/
structure Flow where
  nodes : Array FlowNode := #[]
deriving DecidableEq

namespace Flow

/-- The graph of `n` instructions before anything is known of them. -/
def blank (n : Nat) : Flow := ⟨Array.replicate n {}⟩

/-- The node of instruction `i`. -/
def node (f : Flow) (i : InstId) : FlowNode := f.nodes.getD i {}

/-- Number of instructions. -/
def size (f : Flow) : Nat := f.nodes.size

/-- Adds an edge. -/
def link (f : Flow) (edge : InstId × InstId) : Flow :=
  ⟨(f.nodes.modify edge.1 fun n => { n with succs := n.succs.insert edge.2 }).modify edge.2
    fun n => { n with preds := n.preds.insert edge.1 }⟩

/-- Number of edges. -/
def edgeCount (f : Flow) : Nat := f.nodes.foldl (fun count n => count + n.succs.size) 0

end Flow

namespace Program

/-- The registers among some operands. -/
def registersOf (p : Program) (operands : List VarId) : IdSet :=
  .ofList (operands.filter fun v => (p.var v).isRegister)

/-- The node of an instruction before any edge is added. -/
def flowNode (p : Program) (i : Instruction) : FlowNode :=
  { uses := p.registersOf i.src, defs := p.registersOf i.dst }

/-- Where control goes that jumps to `target`: past the entry marker. -/
def landing? (p : Program) (target : InstId) : Option InstId :=
  if (p.instr target).isEntry then
    if target + 1 < p.size then some (target + 1) else none
  else some target

/-- Which label is carried by which instruction, the last ones first. -/
def carriers (p : Program) : List (VarId × InstId) :=
  ((List.range p.size).filterMap fun i => (p.instr i).label.map fun label => (label, i)).reverse

/-- The last instruction that carries `label`. -/
def carrier? (p : Program) (label : VarId) : Option InstId := p.carriers.lookup label

/-- The instruction to which `i` may branch. -/
def branchTarget? (p : Program) (i : InstId) : Except FlowError (Option InstId) :=
  match p.branchLabel? i with
  | none => .ok none
  | some label =>
    match p.carrier? label with
    | none => .error (.labelNotFound (p.var label).name)
    | some target => .ok (p.landing? target)

/-- Whether control goes from `i` to the instruction after it. -/
def fallsThrough (p : Program) (i : InstId) : Bool :=
  decide (i + 1 < p.size) && (p.instr i).branch != .unconditional && !(p.instr (i + 1)).isEntry

/-- The edges that leave `i`, given where it may branch to. -/
def edgesFrom (p : Program) (i : InstId) (target : Option InstId) : List (InstId × InstId) :=
  (if p.fallsThrough i then [(i, i + 1)] else []) ++ (target.map fun t => (i, t)).toList

/-- Refuses a program that has not exactly one entry marker. -/
def checkEntry (p : Program) : Except FlowError Unit :=
  match p.instrs.countP Instruction.isEntry with
  | 0 => .error .missingEntry
  | 1 => .ok ()
  | count => .error (.duplicateEntry count)

/-- Where each instruction may branch to. -/
def branchTargets (p : Program) : Except FlowError (List (Option InstId)) :=
  (List.range p.size).mapM p.branchTarget?

/-- The control-flow graph of a program. -/
def flow (p : Program) : Except FlowError Flow := do
  p.checkEntry
  let targets ← p.branchTargets
  let edges := (List.range p.size).zip targets |>.flatMap fun (i, target) => p.edgesFrom i target
  return edges.foldl Flow.link ⟨p.instrs.map p.flowNode⟩

end Program

end RegAlloc
