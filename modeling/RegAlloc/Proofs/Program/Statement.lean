import RegAlloc.Program.Parser
import Mathlib.Algebra.Group.Int.Defs

/-!
# Statements

What a source text says, apart from its layout. `Spells` is the grammar of single statements and
`SpellsAll` the grammar of whole texts. `WellFormed` collects the rules that tie the statements of
a text together, and `Program.Renders` says what program they stand for.
-/

namespace RegAlloc

/-- An operand as it is written. -/
inductive Argument where
  | register (name : String)
  | memory (name : String)
  | number (value : Int)
  | label (name : String)
deriving DecidableEq, Repr

/-- A statement as it is written. -/
inductive Statement where
  | memory (name : String) (value : Int)
  | register (name : String)
  | function (name : String)
  | instruction (label : Option String) (opcode : Opcode) (arguments : List Argument)
deriving DecidableEq, Repr

namespace Statement

def declaredMemory? : Statement → Option String
  | memory name _ => some name
  | _ => none

def declaredRegister? : Statement → Option String
  | register name => some name
  | _ => none

/-- The label that the statement defines: the name of a function, or the label before an
instruction. -/
def definedLabel? : Statement → Option String
  | function name => some name
  | instruction label _ _ => label
  | _ => none

def arguments : Statement → List Argument
  | instruction _ _ arguments => arguments
  | _ => []

def isFunction : Statement → Bool
  | function _ => true
  | _ => false

def isInstruction : Statement → Bool
  | instruction .. => true
  | _ => false

/-- Functions and instructions stand for instructions of the program. -/
def isCode (s : Statement) : Bool := s.isFunction || s.isInstruction

/-- The numbers in the statement. -/
def numbers : Statement → List Int
  | memory _ value => [value]
  | instruction _ _ arguments =>
    arguments.filterMap fun
      | .number value => some value
      | _ => none
  | _ => []

end Statement

/-! ## Grammar -/

/-- The operand that a token stands for; punctuation stands for none. -/
def Token.argument? (t : Token) : Option Argument :=
  match t.kind with
  | .registerName => some (.register t.text)
  | .memoryName => some (.memory t.text)
  | .number => some (.number (Text.Decimal.value t.text.toList))
  | .name => some (.label t.text)
  | _ => none

/-- What follows each mnemonic. -/
inductive Opcode.Pattern : Opcode → List Kind → Prop where
  | add : Pattern .add [.registerName, .comma, .registerName, .comma, .registerName]
  | addi : Pattern .addi [.registerName, .comma, .registerName, .comma, .number]
  | sub : Pattern .sub [.registerName, .comma, .registerName, .comma, .registerName]
  | and : Pattern .and [.registerName, .comma, .registerName, .comma, .registerName]
  | or : Pattern .or [.registerName, .comma, .registerName, .comma, .registerName]
  | not : Pattern .not [.registerName, .comma, .registerName]
  | la : Pattern .la [.registerName, .comma, .memoryName]
  | li : Pattern .li [.registerName, .comma, .number]
  | lw : Pattern .lw [.registerName, .comma, .number, .leftParen, .registerName, .rightParen]
  | sw : Pattern .sw [.registerName, .comma, .number, .leftParen, .registerName, .rightParen]
  | b : Pattern .b [.name]
  | bltz : Pattern .bltz [.registerName, .comma, .name]
  | bne : Pattern .bne [.registerName, .comma, .registerName, .comma, .name]
  | nop : Pattern .nop []

/-- The tokens of one statement, without the semicolon. -/
inductive Spells : List Token → Statement → Prop where
  | memory {d name t : Token} : d.kind = .memoryDirective → name.kind = .memoryName →
      t.kind = .number → Spells [d, name, t] (.memory name.text (Text.Decimal.value t.text.toList))
  | register {d name : Token} : d.kind = .registerDirective → name.kind = .registerName →
      Spells [d, name] (.register name.text)
  | function {d name : Token} : d.kind = .functionDirective → name.kind = .name →
      Spells [d, name] (.function name.text)
  | plain {m : Token} {ts : List Token} {opcode : Opcode} : m.kind = .mnemonic opcode →
      opcode.Pattern (ts.map Token.kind) →
      Spells (m :: ts) (.instruction none opcode (ts.filterMap Token.argument?))
  | labeled {label colon m : Token} {ts : List Token} {opcode : Opcode} : label.kind = .name →
      colon.kind = .colon → m.kind = .mnemonic opcode → opcode.Pattern (ts.map Token.kind) →
      Spells (label :: colon :: m :: ts)
        (.instruction (some label.text) opcode (ts.filterMap Token.argument?))

/-- One or more statements, each with its semicolon, and the end of the text. -/
inductive SpellsAll : List Token → List Statement → Prop where
  | last {ts : List Token} {s : Statement} {semicolon eof : Token} : Spells ts s →
      semicolon.kind = .semicolon → eof.kind = .eof → SpellsAll (ts ++ [semicolon, eof]) [s]
  | more {ts rest : List Token} {s : Statement} {ss : List Statement} {semicolon : Token} :
      Spells ts s → semicolon.kind = .semicolon → SpellsAll rest ss →
      SpellsAll (ts ++ semicolon :: rest) (s :: ss)

/-! ## Rules for whole texts -/

/-- A register or memory operand is declared by one of the statements. -/
def Argument.DeclaredIn (ss : List Statement) : Argument → Prop
  | register name => name ∈ ss.filterMap Statement.declaredRegister?
  | memory name => name ∈ ss.filterMap Statement.declaredMemory?
  | number _ | label _ => True

structure WellFormed (ss : List Statement) : Prop where
  memory_nodup : (ss.filterMap Statement.declaredMemory?).Nodup
  registers_nodup : (ss.filterMap Statement.declaredRegister?).Nodup
  numbers_fit : ∀ s ∈ ss, ∀ n ∈ s.numbers, -2 ^ 31 ≤ n ∧ n < 2 ^ 31
  declared : ∀ before s after, ss = before ++ s :: after →
    ∀ a ∈ s.arguments, a.DeclaredIn before
  labels_nodup : (ss.filterMap Statement.definedLabel?).Nodup
  labels_defined : ∀ s ∈ ss, ∀ name, .label name ∈ s.arguments →
    name ∈ ss.filterMap Statement.definedLabel?
  one_function : ∃ before name after, ss = before ++ .function name :: after ∧
    (∀ s ∈ before, s.isCode = false) ∧ ∀ s ∈ after, s.isFunction = false

/-! ## Meaning -/

namespace Program

/-- A variable as it is written. -/
def argumentOf (p : Program) (v : VarId) : Argument :=
  match (p.var v).kind with
  | .register => .register (p.var v).name
  | .memory => .memory (p.var v).name
  | .constant => .number (p.var v).value
  | .label | .untyped => .label (p.var v).name

/-- An instruction as it is written. -/
def statementOf (p : Program) (i : Instruction) : Statement :=
  match i.opcode with
  | none => .function ((i.label.map fun v => (p.var v).name).getD "")
  | some opcode =>
    .instruction (i.label.map fun v => (p.var v).name) opcode (i.operands.map p.argumentOf)

/-- The program that some statements stand for. Its instructions are those of the statements in
order, each with as many destinations as its operation has; its memory variables and registers are
the declared ones in order. A label is one variable wherever it is named, and so is a constant. -/
structure Renders (p : Program) (ss : List Statement) : Prop where
  lists : ∀ kind v, kind ≠ .untyped → (v ∈ p.ofKind kind ↔ (p.var v).kind = kind)
  code : p.instrs.toList.map p.statementOf = ss.filter Statement.isCode
  memory : p.memory.map (fun v => Statement.memory (p.var v).name (p.var v).value) =
    ss.filter fun s => s.declaredMemory?.isSome
  registers : p.registers.map (fun v => Statement.register (p.var v).name) =
    ss.filter fun s => s.declaredRegister?.isSome
  kinds : ∀ i ∈ p.instrs, ∀ opcode, i.opcode = some opcode →
    i.dst.map (fun v => (p.var v).kind) = opcode.shape.dst ∧
      i.src.map (fun v => (p.var v).kind) = opcode.shape.src
  entry : ∀ i ∈ p.instrs, i.opcode = none → i.label.isSome = true ∧ i.operands = []
  labels : ∀ i ∈ p.instrs, ∀ v, i.label = some v → (p.var v).kind = .label
  labels_inj : ∀ v w, (p.var v).kind = .label → (p.var w).kind = .label →
    (p.var v).name = (p.var w).name → v = w
  constants_inj : ∀ v w, (p.var v).kind = .constant → (p.var w).kind = .constant →
    (p.var v).value = (p.var w).value → v = w

end Program

end RegAlloc
