import RegAlloc.Annotated
import RegAlloc.Proofs.Flow.Nodes

/-!
# Running programs

What the operations compute is left open: an interpretation says, for the values that an instruction
reads and the memory, what it writes and where control goes. A program runs over its register
variables, and again over the slots that its annotations give to them.
-/

namespace RegAlloc

/-! ## Code over registers of any kind -/

/-- An operand: a register, or a memory variable, label or constant of the program. -/
inductive Operand (α : Type) where
  | register (r : α)
  | fixed (v : VarId)
deriving DecidableEq

namespace Operand

def map {α β : Type} (σ : α → β) : Operand α → Operand β
  | register r => register (σ r)
  | fixed v => fixed v

def register? {α : Type} : Operand α → Option α
  | register r => some r
  | fixed _ => none

end Operand

/-- An instruction with its operands and the instructions that may follow it. -/
structure Line (α : Type) where
  opcode : Option Opcode
  dst : List (Operand α)
  src : List (Operand α)
  succs : IdSet

namespace Line

def reads {α : Type} (line : Line α) : List α := line.src.filterMap Operand.register?

def writes {α : Type} (line : Line α) : List α := line.dst.filterMap Operand.register?

def rename {α β : Type} (σ : α → β) (line : Line α) : Line β where
  opcode := line.opcode
  dst := line.dst.map (Operand.map σ)
  src := line.src.map (Operand.map σ)
  succs := line.succs

theorem writes_rename {α β : Type} (σ : α → β) (line : Line α) :
    (line.rename σ).writes = line.writes.map σ := by
  simp only [writes, rename, List.filterMap_map, List.map_filterMap]
  congr 1
  funext o
  cases o <;> rfl

/-- An instruction and its renamed copy read the same values where the registers that it reads hold
the same values. -/
theorem values_rename {α β V : Type} {σ : α → β} {line : Line α} {regs : α → V} {regs' : β → V}
    (h : ∀ r ∈ line.reads, regs' (σ r) = regs r) :
    (line.rename σ).src.map (Operand.map regs') = line.src.map (Operand.map regs) := by
  simp only [rename, List.map_map]
  apply List.map_congr_left
  intro o ho
  cases o with
  | fixed v => rfl
  | register r =>
      have hr : r ∈ line.reads := List.mem_filterMap.mpr ⟨.register r, ho, rfl⟩
      exact congrArg Operand.register (h r hr)

end Line

namespace Annotated

def operandOf (a : Annotated) (v : VarId) : Operand VarId :=
  if (a.program.var v).isRegister then .register v else .fixed v

def code (a : Annotated) (n : InstId) : Line VarId where
  opcode := (a.program.instr n).opcode
  dst := (a.program.instr n).dst.map a.operandOf
  src := (a.program.instr n).src.map a.operandOf
  succs := (a.flow.node n).succs

/-- The slot that stands for a register variable. -/
def home (a : Annotated) (v : VarId) : Slot := (a.slotOf v).getD ⟨0⟩

/-- The program with every register variable replaced by its slot. -/
def physicalCode (a : Annotated) (n : InstId) : Line Slot := (a.code n).rename a.home

theorem mem_filterMap_operandOf {a : Annotated} {operands : List VarId} {v : VarId} :
    v ∈ (operands.map a.operandOf).filterMap Operand.register? ↔
      v ∈ a.program.registersOf operands := by
  simp only [Program.mem_registersOf, List.filterMap_map, List.mem_filterMap, Function.comp_apply,
    operandOf]
  constructor
  · rintro ⟨w, hw, h⟩
    split at h
    · rename_i hregister
      cases h
      exact ⟨hw, hregister⟩
    · cases h
  · rintro ⟨hv, hregister⟩
    exact ⟨v, hv, by rw [ite_cond_eq_true _ _ (eq_true hregister)]; rfl⟩

end Annotated

/-! ## Machines -/

/-- A state of a run. Control is at an instruction, or at none once the run has ended. -/
structure Machine (α V M : Type) where
  pc : Option InstId
  regs : α → V
  memory : M

/-- What an instruction does: the value for its destination, the memory afterwards, and the next
instruction, if the run goes on. -/
structure Effect (V M : Type) where
  result : V
  memory : M
  next : Option InstId

/-- The effect of each instruction, given its operation, the values of its source operands and the
memory. -/
abbrev Interpretation (V M : Type) :=
  InstId → Option Opcode → List (Operand V) → M → Effect V M

namespace Machine

variable {α V M : Type} [DecidableEq α]

def effect (I : Interpretation V M) (n : InstId) (line : Line α) (m : Machine α V M) :
    Effect V M :=
  I n line.opcode (line.src.map (Operand.map m.regs)) m.memory

/-- The state after a line with a known effect. -/
def write (line : Line α) (e : Effect V M) (m : Machine α V M) : Machine α V M where
  pc := e.next
  regs r := if r ∈ line.writes then e.result else m.regs r
  memory := e.memory

/-- Executes one instruction. There is no step from the end of a run, and none to an instruction
that does not follow. -/
def step (I : Interpretation V M) (code : InstId → Line α) (m : Machine α V M) :
    Option (Machine α V M) :=
  match m.pc with
  | none => none
  | some n =>
    let e := m.effect I n (code n)
    if ∀ s ∈ e.next, s ∈ (code n).succs then some (m.write (code n) e) else none

/-- The states of up to `k` steps, from the first on. -/
def trace (I : Interpretation V M) (code : InstId → Line α) :
    Nat → Machine α V M → List (Machine α V M)
  | 0, m => [m]
  | k + 1, m =>
    match m.step I code with
    | none => [m]
    | some next => m :: trace I code k next

/-- The instructions that up to `k` steps execute. -/
def executed (I : Interpretation V M) (code : InstId → Line α) : Nat → Machine α V M → List InstId
  | 0, _ => []
  | k + 1, m =>
    match m.step I code with
    | none => []
    | some next => m.pc.toList ++ executed I code k next

end Machine

end RegAlloc
