import RegAlloc.Annotated
import RegAlloc.Text.Decimal

/-!
# Assembly text

Prints an annotated program as MIPS assembly: a data section with the memory variables and a text
section with the instructions. Register variables appear as the registers of their slots; one
without a slot of the palette keeps its own name.
-/

namespace RegAlloc

/-- Fills the operand places of a template from the left. -/
def Shape.fill : List Char → List String → String
  | '\'' :: _ :: cs, operand :: operands => operand ++ fill cs operands
  | '\'' :: _ :: cs, [] => fill cs []
  | c :: cs, operands => c.toString ++ fill cs operands
  | [], _ => ""

namespace Annotated

/-- The text of an operand. -/
def operand (a : Annotated) (palette : Palette) (v : VarId) : String :=
  match (a.program.var v).kind with
  | .register => ((a.slotOf v).bind palette.render?).getD (a.program.var v).name
  | .constant => Text.Decimal.text (a.program.var v).value
  | .label | .memory | .untyped => (a.program.var v).name

/-- The text of an instruction without its label; an entry marker has none. -/
def body (a : Annotated) (palette : Palette) (i : InstId) : String :=
  match (a.program.instr i).opcode with
  | none => ""
  | some opcode =>
    Shape.fill opcode.shape.template.toList ((a.program.instr i).operands.map (a.operand palette))

/-- The text of an instruction with its label on a line of its own. -/
def line (a : Annotated) (palette : Palette) (i : InstId) : String :=
  match (a.program.instr i).label with
  | none => "\t" ++ a.body palette i
  | some label =>
    if (a.program.instr i).isEntry then a.operand palette label ++ ":"
    else a.operand palette label ++ ":\n\t" ++ a.body palette i

/-- The line that makes the function visible to other files. -/
def globalHeader (a : Annotated) (palette : Palette) : String :=
  match a.program.entry?.bind fun i => (a.program.instr i).label with
  | some label => ".globl " ++ a.operand palette label ++ "\n\n"
  | none => ""

/-- The line that declares a memory variable. -/
def dataLine (a : Annotated) (v : VarId) : String :=
  (a.program.var v).name ++ ":\t.word " ++ Text.Decimal.text (a.program.var v).value ++ "\n"

/-- The whole document. Its last line returns from the function and has no newline. -/
def assembly (a : Annotated) (palette : Palette) (globl : Bool) : String :=
  (if globl then a.globalHeader palette else "")
    ++ ".data\n" ++ String.join (a.program.memory.map a.dataLine)
    ++ "\n.text\n"
    ++ String.join ((List.range a.program.size).map fun i => a.line palette i ++ "\n")
    ++ "\tjr $ra"

end Annotated

end RegAlloc
