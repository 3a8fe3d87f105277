import RegAlloc.Assembly
import RegAlloc.Proofs.Safety.Analysis

/-!
# Accesses of the printers

The assembly text looks up the variables of all operands, labels and memory declarations, and the
display of a graph reads all cells of its matrix.
-/

namespace RegAlloc

namespace Checked

/-! ## Graphs -/

def row (g : Graph) (a : Nat) : Option String := do
  let cells ← (List.range g.size).mapM (g.adjacent? a)
  return "[" ++ String.join (cells.map fun cell => if cell then " 1" else " 0") ++ " ]\n"

def render (g : Graph) : Option String := do
  let rows ← (List.range g.size).mapM (row g)
  return String.join rows

/-- Displaying a graph makes no access out of range. -/
theorem render_eq_some (g : Graph) : render g = some g.render := by
  have hrows : (List.range g.size).mapM (row g) = some ((List.range g.size).map fun a =>
      "[" ++ String.join ((List.range g.size).map fun b => if g.adjacent a b then " 1" else " 0")
        ++ " ]\n") := by
    refine mapM_eq_some fun a ha => ?_
    have hcells : (List.range g.size).mapM (g.adjacent? a) =
        some ((List.range g.size).map (g.adjacent a)) :=
      mapM_eq_some fun b hb =>
        Graph.adjacent?_eq_some (List.mem_range.mp ha) (List.mem_range.mp hb)
    rw [row, hcells, Option.bind_eq_bind, Option.bind_some, List.map_map]
    rfl
  rw [render, hrows]
  rfl

/-! ## Assembly text -/

def operand (a : Annotated) (palette : Palette) (v : VarId) : Option String := do
  let x ← a.program.var? v
  match x.kind with
  | .register => return ((a.slotOf v).bind palette.render?).getD x.name
  | .constant => return Text.Decimal.text x.value
  | .label | .memory | .untyped => return x.name

def body (a : Annotated) (palette : Palette) (i : InstId) : Option String := do
  let x ← a.program.instr? i
  match x.opcode with
  | none => return ""
  | some opcode =>
    let operands ← x.operands.mapM (operand a palette)
    return Shape.fill opcode.shape.template.toList operands

def line (a : Annotated) (palette : Palette) (i : InstId) : Option String := do
  let x ← a.program.instr? i
  let body ← body a palette i
  match x.label with
  | none => return "\t" ++ body
  | some label =>
    let name ← operand a palette label
    if x.isEntry then return name ++ ":" else return name ++ ":\n\t" ++ body

def globalHeader (a : Annotated) (palette : Palette) : Option String :=
  match a.program.entry? with
  | none => return ""
  | some i => do
    let x ← a.program.instr? i
    match x.label with
    | none => return ""
    | some label =>
      let name ← operand a palette label
      return ".globl " ++ name ++ "\n\n"

def dataLine (a : Annotated) (v : VarId) : Option String := do
  let x ← a.program.var? v
  return x.name ++ ":\t.word " ++ Text.Decimal.text x.value ++ "\n"

def assembly (a : Annotated) (palette : Palette) (globl : Bool) : Option String := do
  let header ← globalHeader a palette
  let data ← a.program.memory.mapM (dataLine a)
  let lines ← (List.range a.program.size).mapM (line a palette)
  return (if globl then header else "") ++ ".data\n" ++ String.join data ++ "\n.text\n"
    ++ String.join (lines.map (· ++ "\n")) ++ "\tjr $ra"

section Assembly

variable {a : Annotated} {palette : Palette} {i : InstId}

theorem operand_eq_some {v : VarId} (h : v < a.program.vars.size) :
    operand a palette v = some (a.operand palette v) := by
  rw [operand, Program.var?_eq_some h, Option.bind_eq_bind, Option.bind_some, Annotated.operand]
  cases (a.program.var v).kind <;> rfl

theorem body_eq_some (h : a.program.Indexed) (hi : i < a.program.size) :
    body a palette i = some (a.body palette i) := by
  rw [body, Program.instr?_eq_some hi, Option.bind_eq_bind, Option.bind_some, Annotated.body]
  cases (a.program.instr i).opcode with
  | none => rfl
  | some opcode =>
      have hoperands : (a.program.instr i).operands.mapM (operand a palette) =
          some ((a.program.instr i).operands.map (a.operand palette)) :=
        mapM_eq_some fun v hv => operand_eq_some (h.operand hi hv)
      dsimp only
      rw [hoperands]
      rfl

theorem line_eq_some (h : a.program.Indexed) (hi : i < a.program.size) :
    line a palette i = some (a.line palette i) := by
  rw [line, Program.instr?_eq_some hi, body_eq_some h hi]
  simp only [Option.bind_eq_bind, Option.bind_some, Annotated.line]
  cases hlabel : (a.program.instr i).label with
  | none => rfl
  | some label =>
      dsimp only
      rw [operand_eq_some (h.label hi hlabel), Option.bind_some]
      split <;> rfl

theorem globalHeader_eq_some (h : a.program.Indexed) :
    globalHeader a palette = some (a.globalHeader palette) := by
  unfold globalHeader Annotated.globalHeader
  cases hentry : a.program.entry? with
  | none => rfl
  | some i =>
      have hi : i < a.program.size := (Array.findIdx?_eq_some_iff_getElem.mp hentry).1
      dsimp only
      rw [Program.instr?_eq_some hi, Option.bind_eq_bind, Option.bind_some, Option.bind_some]
      cases hlabel : (a.program.instr i).label with
      | none => rfl
      | some label =>
          dsimp only
          rw [operand_eq_some (h.label hi hlabel)]
          rfl

/-- Printing a program makes no access out of range. -/
theorem assembly_eq_some (h : a.program.Indexed) (palette : Palette) (globl : Bool) :
    assembly a palette globl = some (a.assembly palette globl) := by
  have hdata : a.program.memory.mapM (dataLine a) = some (a.program.memory.map a.dataLine) := by
    refine mapM_eq_some fun v hv => ?_
    rw [dataLine, Program.var?_eq_some (h.memory hv)]
    rfl
  have hlines : (List.range a.program.size).mapM (line a palette) =
      some ((List.range a.program.size).map (a.line palette)) :=
    mapM_eq_some fun i hi => line_eq_some h (List.mem_range.mp hi)
  rw [assembly, globalHeader_eq_some h, hdata, hlines]
  simp only [Option.bind_eq_bind, Option.bind_some, List.map_map]
  rfl

end Assembly

end Checked

end RegAlloc
