/-!
# Operations

The fourteen operations of the assembly language. `Opcode.shape` is the table of their operand
kinds, of their effect on control flow and of their printed form.
-/

namespace RegAlloc

/-- Kind of an operand. -/
inductive VarKind where
  | register
  | memory
  | label
  | constant
  | untyped
deriving DecidableEq, Repr

/-- The kind as it is spelled in messages. -/
def VarKind.name : VarKind → String
  | register => "register"
  | memory => "memory"
  | label => "label"
  | constant => "constant"
  | untyped => "untyped"

/-- How an operation affects control flow. -/
inductive Branch where
  /-- control goes to the next instruction -/
  | straight
  /-- control goes to the label -/
  | unconditional
  /-- control goes to the label or to the next instruction -/
  | conditional
deriving DecidableEq, Repr

/-- Operations of the assembly language. -/
inductive Opcode where
  | add
  | addi
  | sub
  | and
  | or
  | not
  | la
  | li
  | lw
  | sw
  | b
  | bltz
  | bne
  | nop
deriving DecidableEq, Repr

/-- Static description of an operation. In `template` each quote mark and the letter after it stand
for an operand; destinations fill these places from the left, then sources. -/
structure Shape where
  name : String
  dst : List VarKind
  src : List VarKind
  branch : Branch
  template : String
deriving DecidableEq, Repr

namespace Opcode

/-- All operations, in the order of the table. -/
def all : List Opcode :=
  [.add, .addi, .sub, .and, .or, .not, .la, .li, .lw, .sw, .b, .bltz, .bne, .nop]

/-- The table of operations. -/
def shape : Opcode → Shape
  | add => ⟨"add", [.register], [.register, .register], .straight, "add 'd, 's, 's"⟩
  | addi => ⟨"addi", [.register], [.register, .constant], .straight, "addi 'd, 's, 'c"⟩
  | sub => ⟨"sub", [.register], [.register, .register], .straight, "sub 'd, 's, 's"⟩
  | and => ⟨"and", [.register], [.register, .register], .straight, "and 'd, 's, 's"⟩
  | or => ⟨"or", [.register], [.register, .register], .straight, "or 'd, 's, 's"⟩
  | not => ⟨"not", [.register], [.register], .straight, "not 'd, 's"⟩
  | la => ⟨"la", [.register], [.memory], .straight, "la 'd, 'm"⟩
  | li => ⟨"li", [.register], [.constant], .straight, "li 'd, 'c"⟩
  | lw => ⟨"lw", [.register], [.constant, .register], .straight, "lw 'd, 'c('s)"⟩
  | sw => ⟨"sw", [], [.register, .constant, .register], .straight, "sw 's, 'c('s)"⟩
  | b => ⟨"b", [], [.label], .unconditional, "b 'l"⟩
  | bltz => ⟨"bltz", [], [.register, .label], .conditional, "bltz 's, 'l"⟩
  | bne => ⟨"bne", [], [.register, .register, .label], .conditional, "bne 's, 's, 'l"⟩
  | nop => ⟨"nop", [], [], .straight, "nop"⟩

/-- Mnemonic of the operation. -/
def name (op : Opcode) : String := op.shape.name

/-- The operation with the given mnemonic. -/
def ofName? (s : String) : Option Opcode := all.find? fun op => op.name == s

theorem mem_all (op : Opcode) : op ∈ all := by cases op <;> decide

theorem ofName?_name (op : Opcode) : ofName? op.name = some op := by cases op <;> decide

theorem name_of_ofName? {s : String} {op : Opcode} (h : ofName? s = some op) : op.name = s := by
  simpa using List.find?_some h

end Opcode

end RegAlloc
