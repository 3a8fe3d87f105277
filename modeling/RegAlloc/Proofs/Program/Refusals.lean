import RegAlloc.Program.Builder
import RegAlloc.Proofs.Refusal

/-!
# Calls that are refused

A call of the builder checks its arguments before it changes anything. So it is refused with the
answer of its check, and then it leaves the builder as it was.
-/

namespace RegAlloc.Builder

namespace Action

theorem atomic_entry (label : VarId) : Atomic (entry label) :=
  atomic_check fun _ => ((total_modify _).bind fun _ => total_modifyGet _).atomic

theorem atomic_instruction (opcode : Opcode) (dst src : List VarId) :
    Atomic (instruction opcode dst src) :=
  atomic_check fun _ => (total_modifyGet _).atomic

theorem atomic_attach (inst : InstId) (label : VarId) : Atomic (attach inst label) :=
  atomic_check fun _ => ((total_modify _).bind fun _ => total_modify _).atomic

theorem answer_discard {α : Type} (action : Action α) (b : Builder) :
    (answer (discard action) b).map Prod.snd = (action.answer b).map Prod.snd := by
  rw [answer, answer, discard_apply]
  cases action b <;> rfl

end Action

variable (b : Builder)

theorem entry_eq (label : VarId) :
    b.entry label = (b.checkFree label).map fun _ =>
      (b.define label).append fun position => { position, opcode := none, label := some label } := by
  have happly : Action.entry label b = _ := check_apply (fun b : Builder => b.checkFree label) _ b
  rw [entry, Action.answer, happly]
  cases b.checkFree label <;> rfl

theorem instruction_eq (opcode : Opcode) (dst src : List VarId) :
    b.instruction opcode dst src = (b.checkOperands opcode dst src).map fun _ =>
      b.append fun position => { position, opcode := some opcode, dst, src } := by
  have happly : Action.instruction opcode dst src b = _ :=
    check_apply (fun b : Builder => b.checkOperands opcode dst src) _ b
  rw [instruction, Action.answer, happly]
  cases b.checkOperands opcode dst src <;> rfl

theorem attach_eq (inst : InstId) (label : VarId) :
    b.attach inst label =
      (b.checkFree label).map fun _ => (b.define label).relabel inst label := by
  have happly : Action.attach inst label b = _ := check_apply (fun b : Builder => b.checkFree label) _ b
  rw [attach, Action.answer, happly]
  cases b.checkFree label <;> rfl

variable {b}

theorem exists_entry {label : VarId} (h : b.checkFree label = .ok ()) :
    ∃ r, b.entry label = .ok r := by
  rw [entry_eq, h]
  exact ⟨_, rfl⟩

theorem exists_instruction {opcode : Opcode} {dst src : List VarId}
    (h : b.checkOperands opcode dst src = .ok ()) : ∃ r, b.instruction opcode dst src = .ok r := by
  rw [instruction_eq, h]
  exact ⟨_, rfl⟩

theorem exists_attach {label : VarId} (h : b.checkFree label = .ok ()) (inst : InstId) :
    ∃ b', b.attach inst label = .ok b' := by
  rw [attach_eq, h]
  exact ⟨_, rfl⟩

end RegAlloc.Builder
