import RegAlloc.Program
import RegAlloc.Text.Decimal

/-!
# Building programs

A `Builder` grows a program by one variable or one instruction at a time. It numbers registers and
instructions densely, keeps one variable per constant, and refuses operands that do not fit the
operation and labels that an instruction has taken before. A refused call returns a `BuildError`.
-/

namespace RegAlloc

/-- A counter that hands out 0, 1, 2, … -/
structure Sequence where
  upcoming : Nat := 0
deriving DecidableEq, Repr

namespace Sequence

/-- The number that is handed out next. -/
def peek (s : Sequence) : Nat := s.upcoming

/-- Hands out a number. -/
def next (s : Sequence) : Nat × Sequence := (s.upcoming, ⟨s.upcoming + 1⟩)

end Sequence

/-- The two operand lists of an instruction. -/
inductive Role where
  | destination
  | source
deriving DecidableEq, Repr

def Role.name : Role → String
  | destination => "destination"
  | source => "source"

/-- Why a list of operands does not fit an operation. -/
inductive Mismatch where
  | count (role : Role) (expected found : Nat)
  | kind (role : Role) (slot : Nat) (name : String) (found expected : VarKind)
deriving DecidableEq, Repr

def Mismatch.message : Mismatch → String
  | count role expected found => s!"expected {expected} {role.name} operands, got {found}"
  | kind role slot name found expected =>
    s!"{role.name} operand {slot} ({name}) is a {found.name} variable, expected {expected.name}"

/-- Why a builder refuses an instruction or a label. -/
inductive BuildError where
  | operandMismatch (opcode : Opcode) (reason : Mismatch)
  | duplicateLabel (name : String)
  | notALabel (name : String)
deriving DecidableEq, Repr

def BuildError.message : BuildError → String
  | operandMismatch opcode reason => s!"Operands do not match `{opcode.name}`: {reason.message}"
  | duplicateLabel name => s!"Label {name} is already carried by another instruction"
  | notALabel name => s!"Variable {name} is not a label and cannot be attached to an instruction"

/-- A program under construction, with the counters of its instructions and registers and with its
constants by their values. -/
structure Builder where
  program : Program := {}
  instructionSeq : Sequence := {}
  registerSeq : Sequence := {}
  interned : List (Int × VarId) := []
deriving DecidableEq, Repr

namespace Builder

/-- The variable with index `v`. -/
def var (b : Builder) (v : VarId) : Variable := b.program.var v

/-- Number of instructions so far. -/
def instructionCount (b : Builder) : Nat := b.program.size

/-! ### Variables -/

/-- Adds a variable to the program, not yet to the list of its kind. -/
def push (b : Builder) (kind : VarKind) (name : String) (value : Int) (position : Option Nat) :
    VarId × Builder :=
  (b.program.vars.size,
    { b with program := { b.program with
      vars := b.program.vars.push ⟨kind, name, value, position⟩ } })

/-- Declares a memory variable with its initial value. -/
def memory (b : Builder) (name : String) (value : Int) : VarId × Builder :=
  let (id, b) := b.push .memory name value none
  (id, { b with program := { b.program with memory := b.program.memory ++ [id] } })

/-- Declares a register variable, which takes the next position. -/
def register (b : Builder) (name : String) : VarId × Builder :=
  let (position, registerSeq) := b.registerSeq.next
  let (id, b) := b.push .register name 0 (some position)
  (id,
    { b with program := { b.program with registers := b.program.registers ++ [id] }, registerSeq })

/-- Creates a label that no instruction carries yet. -/
def label (b : Builder) (name : String) : VarId × Builder :=
  let (id, b) := b.push .label name 0 none
  (id, { b with program := { b.program with labels := b.program.labels ++ [id] } })

/-- Creates a variable without a kind. No operation takes it as an operand. -/
def untyped (b : Builder) (name : String) : VarId × Builder := b.push .untyped name (-1) none

/-- The constant with a value, if there is one. -/
def constant? (b : Builder) (value : Int) : Option VarId :=
  b.interned.lookup value

/-- The constant with a value. It is created when the value is seen first. -/
def constant (b : Builder) (value : Int) : VarId × Builder :=
  match b.constant? value with
  | some id => (id, b)
  | none =>
    let (id, b) := b.push .constant (Text.Decimal.text value) value none
    (id,
      { b with
        program := { b.program with constants := b.program.constants ++ [id] }
        interned := (value, id) :: b.interned })

/-! ### Instructions -/

/-- Refuses a variable that is no label, or a label that an instruction has taken. -/
def checkFree (b : Builder) (label : VarId) : Except BuildError Unit :=
  if (b.var label).kind ≠ .label then .error (.notALabel (b.var label).name)
  else if (b.var label).isDefinedLabel then .error (.duplicateLabel (b.var label).name)
  else .ok ()

/-- Marks a label as taken. -/
def define (b : Builder) (label : VarId) : Builder :=
  { b with program := { b.program with
    vars := b.program.vars.modify label fun v => { v with value := 1 } } }

/-- The first operand, counted from `slot`, whose kind is not the expected one. -/
def wrongKind? (b : Builder) (role : Role) : Nat → List VarKind → List VarId → Option Mismatch
  | slot, kind :: kinds, id :: ids =>
    if (b.var id).kind = kind then b.wrongKind? role (slot + 1) kinds ids
    else some (.kind role slot (b.var id).name (b.var id).kind kind)
  | _, _, _ => none

/-- Why `found` does not fit the `expected` kinds; a wrong number of operands comes first. -/
def mismatch? (b : Builder) (role : Role) (expected : List VarKind) (found : List VarId) :
    Option Mismatch :=
  if expected.length = found.length then b.wrongKind? role 1 expected found
  else some (.count role expected.length found.length)

/-- Refuses operands that do not fit the operation, destinations first. -/
def checkOperands (b : Builder) (opcode : Opcode) (dst src : List VarId) : Except BuildError Unit :=
  match b.mismatch? .destination opcode.shape.dst dst with
  | some reason => .error (.operandMismatch opcode reason)
  | none =>
    match b.mismatch? .source opcode.shape.src src with
    | some reason => .error (.operandMismatch opcode reason)
    | none => .ok ()

/-- Appends an instruction at the next position. -/
def append (b : Builder) (make : Nat → Instruction) : InstId × Builder :=
  let (position, instructionSeq) := b.instructionSeq.next
  (b.program.instrs.size,
    { b with program := { b.program with instrs := b.program.instrs.push (make position) },
             instructionSeq })

/-- Gives a label to an instruction, in place of the one that it may have. -/
def relabel (b : Builder) (inst : InstId) (label : VarId) : Builder :=
  { b with program := { b.program with
    instrs := b.program.instrs.modify inst fun i => { i with label := some label } } }

/-- A call that may be refused. Whether it is refused or not, it leaves a builder. -/
abbrev Action (α : Type) := EStateM BuildError Builder α

namespace Action

/-- Appends the entry marker of a function, which carries `label`. -/
def entry (label : VarId) : Action InstId := do
  ofExcept ((← get).checkFree label)
  modify fun b => b.define label
  modifyGet fun b => b.append fun position => { position, opcode := none, label := some label }

/-- Appends an instruction whose operands fit its operation. -/
def instruction (opcode : Opcode) (dst src : List VarId) : Action InstId := do
  ofExcept ((← get).checkOperands opcode dst src)
  modifyGet fun b => b.append fun position => { position, opcode := some opcode, dst, src }

/-- Gives a free label to an instruction. -/
def attach (inst : InstId) (label : VarId) : Action Unit := do
  ofExcept ((← get).checkFree label)
  modify fun b => b.define label
  modify fun b => b.relabel inst label

/-- The answer of a call, and the builder if there is no error. -/
def answer {α : Type} (action : Action α) (b : Builder) : Except BuildError (α × Builder) :=
  match action b with
  | .ok a b => .ok (a, b)
  | .error e _ => .error e

end Action

/-- Appends the entry marker of a function, which carries `label`. -/
def entry (b : Builder) (label : VarId) : Except BuildError (InstId × Builder) :=
  (Action.entry label).answer b

/-- Appends an instruction whose operands fit its operation. -/
def instruction (b : Builder) (opcode : Opcode) (dst src : List VarId) :
    Except BuildError (InstId × Builder) :=
  (Action.instruction opcode dst src).answer b

/-- Gives a free label to an instruction. -/
def attach (b : Builder) (inst : InstId) (label : VarId) : Except BuildError Builder :=
  ((Action.attach inst label).answer b).map Prod.snd

end Builder

end RegAlloc
