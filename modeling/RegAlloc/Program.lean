import RegAlloc.Opcode

/-!
# Programs

A program is one function: its variables, its instructions and, for each kind of variable, the list
of its members in order of declaration. Instructions refer to variables by index, and both are
numbered in order of creation.
-/

namespace RegAlloc

/-- Index of a variable, in order of creation. -/
abbrev VarId := Nat

/-- Index of an instruction, in order of creation. -/
abbrev InstId := Nat

/-- One operand of the program. The value is the initial value of a memory variable, the number of
a constant, and 1 or 0 for a label that is defined or not. Registers alone have a position, their
index among the registers. -/
structure Variable where
  kind : VarKind
  name : String
  value : Int
  position : Option Nat
deriving DecidableEq, Repr

namespace Variable

instance : Inhabited Variable := ⟨⟨.untyped, "", -1, none⟩⟩

def isRegister (v : Variable) : Bool := v.kind == .register

/-- Whether `v` is a label that some instruction has taken. -/
def isDefinedLabel (v : Variable) : Bool := v.kind == .label && v.value == 1

end Variable

/-- One operation of the program. The entry marker of the function has a label and no opcode. -/
structure Instruction where
  position : Nat
  opcode : Option Opcode
  label : Option VarId := none
  dst : List VarId := []
  src : List VarId := []
deriving DecidableEq, Repr

namespace Instruction

instance : Inhabited Instruction := ⟨{ position := 0, opcode := none }⟩

/-- Whether this is the entry marker of a function. -/
def isEntry (i : Instruction) : Bool := i.opcode.isNone && i.label.isSome

/-- Effect on control flow. -/
def branch (i : Instruction) : Branch := (i.opcode.map fun op => op.shape.branch).getD .straight

/-- Operands in printing order. -/
def operands (i : Instruction) : List VarId := i.dst ++ i.src

end Instruction

/-- A function with its variables. -/
structure Program where
  vars : Array Variable := #[]
  instrs : Array Instruction := #[]
  registers : List VarId := []
  memory : List VarId := []
  labels : List VarId := []
  constants : List VarId := []
deriving DecidableEq, Repr

namespace Program

instance : Inhabited Program := ⟨{}⟩

/-- The variable with index `v`. -/
def var (p : Program) (v : VarId) : Variable := p.vars.getD v default

/-- The instruction with index `i`. -/
def instr (p : Program) (i : InstId) : Instruction := p.instrs.getD i default

/-- Number of instructions. -/
def size (p : Program) : Nat := p.instrs.size

/-- Number of register variables. -/
def registerCount (p : Program) : Nat := p.registers.length

/-- The register variable at a position. -/
def registerAt? (p : Program) (position : Nat) : Option VarId := p.registers[position]?

/-- Name of the register variable at a position. -/
def registerName? (p : Program) (position : Nat) : Option String :=
  (p.registerAt? position).map fun v => (p.var v).name

/-- The first entry marker. -/
def entry? (p : Program) : Option InstId := p.instrs.findIdx? Instruction.isEntry

/-- The first instruction that carries `label`. -/
def labeled? (p : Program) (label : VarId) : Option InstId :=
  p.instrs.findIdx? fun i => i.label == some label

/-- The label to which instruction `i` may jump: the last label among its sources. -/
def branchLabel? (p : Program) (i : InstId) : Option VarId :=
  if (p.instr i).branch = .straight then none
  else (p.instr i).src.reverse.find? fun v => (p.var v).kind == .label

/-- The variables of a kind in order of creation; those without a kind are not kept. -/
def ofKind (p : Program) : VarKind → List VarId
  | .register => p.registers
  | .memory => p.memory
  | .label => p.labels
  | .constant => p.constants
  | .untyped => []

/-- The first variable with a name, whatever its kind. -/
def find? (p : Program) (name : String) : Option VarId := p.vars.findIdx? fun v => v.name == name

end Program

end RegAlloc
