import RegAlloc.Proofs.Program.Refusals

/-!
# Numbering of register variables

In every program that a builder makes, each register variable has a position of its own, at which
the list of the registers holds it.
-/

namespace RegAlloc

/-- Each register variable stands at its position in the list of the registers. -/
def Program.Numbered (p : Program) : Prop :=
  ∀ v, (p.var v).isRegister = true →
    ∃ position, (p.var v).position = some position ∧ p.registers[position]? = some v

theorem Program.Numbered.position_inj {p : Program} (h : p.Numbered) {v w : VarId} {position : Nat}
    (hv : (p.var v).isRegister = true) (hw : (p.var w).isRegister = true)
    (hpv : (p.var v).position = some position) (hpw : (p.var w).position = some position) :
    v = w := by
  obtain ⟨i, hi, hregv⟩ := h v hv
  obtain ⟨j, hj, hregw⟩ := h w hw
  rw [hpv] at hi
  rw [hpw] at hj
  cases hi
  cases hj
  rw [hregv] at hregw
  exact Option.some.inj hregw

namespace Builder

/-- The builders that calls of the builder make from the empty one. A refused call makes none. -/
inductive Reachable : Builder → Prop where
  | new : Reachable {}
  | memory {b : Builder} (h : Reachable b) (name : String) (value : Int) :
      Reachable (b.memory name value).2
  | register {b : Builder} (h : Reachable b) (name : String) : Reachable (b.register name).2
  | label {b : Builder} (h : Reachable b) (name : String) : Reachable (b.label name).2
  | untyped {b : Builder} (h : Reachable b) (name : String) : Reachable (b.untyped name).2
  | constant {b : Builder} (h : Reachable b) (value : Int) : Reachable (b.constant value).2
  | entry {b b' : Builder} {label : VarId} {inst : InstId} (h : Reachable b)
      (hentry : b.entry label = .ok (inst, b')) : Reachable b'
  | instruction {b b' : Builder} {opcode : Opcode} {dst src : List VarId} {inst : InstId}
      (h : Reachable b) (hinstruction : b.instruction opcode dst src = .ok (inst, b')) :
      Reachable b'
  | attach {b b' : Builder} {inst : InstId} {label : VarId} (h : Reachable b)
      (hinst : inst < b.instructionCount) (hattach : b.attach inst label = .ok b') : Reachable b'

/-- The registers are numbered, and the next one takes the position after the last. -/
structure Numbered (b : Builder) : Prop where
  upcoming_eq : b.registerSeq.upcoming = b.program.registers.length
  numbered : b.program.Numbered

/-! ## Variables after a call -/

theorem var_push (b : Builder) (kind : VarKind) (name : String) (value : Int)
    (position : Option Nat) (v : VarId) :
    (b.push kind name value position).2.program.var v =
      if v = b.program.vars.size then ⟨kind, name, value, position⟩ else b.program.var v := by
  simp only [push, Program.var, Array.getD_eq_getD_getElem?, Array.getElem?_push]
  split <;> rfl

theorem kind_define (b : Builder) (label v : VarId) :
    ((b.define label).program.var v).kind = (b.program.var v).kind := by
  simp only [define, Program.var, Array.getD_eq_getD_getElem?, Array.getElem?_modify]
  split
  · cases b.program.vars[v]? <;> rfl
  · rfl

theorem position_define (b : Builder) (label v : VarId) :
    ((b.define label).program.var v).position = (b.program.var v).position := by
  simp only [define, Program.var, Array.getD_eq_getD_getElem?, Array.getElem?_modify]
  split
  · cases b.program.vars[v]? <;> rfl
  · rfl

/-! ## Calls keep the numbering -/

/-- Numbering is a matter of kinds, positions and the list of the registers. -/
theorem Numbered.congr {b b' : Builder} (h : b.Numbered)
    (hkind : ∀ v, (b'.program.var v).kind = (b.program.var v).kind)
    (hposition : ∀ v, (b'.program.var v).position = (b.program.var v).position)
    (hregisters : b'.program.registers = b.program.registers)
    (hseq : b'.registerSeq = b.registerSeq) : b'.Numbered := by
  constructor
  · rw [hseq, hregisters]
    exact h.upcoming_eq
  · intro v hv
    rw [hposition, hregisters]
    apply h.numbered v
    rw [← hv, Variable.isRegister, Variable.isRegister, hkind]

theorem Numbered.push {b : Builder} (h : b.Numbered) {kind : VarKind} (hkind : kind ≠ .register)
    (name : String) (value : Int) : (b.push kind name value none).2.Numbered := by
  refine ⟨h.upcoming_eq, ?_⟩
  intro v hv
  rw [var_push] at hv ⊢
  split at hv
  · simp [Variable.isRegister, hkind] at hv
  · rename_i hne
    rw [ite_cond_eq_false _ _ (eq_false hne)]
    exact h.numbered v hv

theorem Numbered.register {b : Builder} (h : b.Numbered) (name : String) :
    (b.register name).2.Numbered := by
  have hvar : ∀ v, (b.register name).2.program.var v =
      if v = b.program.vars.size then ⟨.register, name, 0, some b.program.registers.length⟩
      else b.program.var v := by
    intro v
    rw [← h.upcoming_eq]
    exact b.var_push .register name 0 (some b.registerSeq.upcoming) v
  have hregisters : (b.register name).2.program.registers =
      b.program.registers ++ [b.program.vars.size] := rfl
  constructor
  · rw [hregisters, List.length_append, ← h.upcoming_eq]
    rfl
  · intro v hv
    rw [hvar] at hv ⊢
    rw [hregisters]
    split at hv
    · rename_i heq
      refine ⟨b.program.registers.length, by simp [heq], ?_⟩
      rw [List.getElem?_concat_length, heq]
    · rename_i hne
      obtain ⟨position, hposition, hregister⟩ := h.numbered v hv
      refine ⟨position, by simpa [hne] using hposition, ?_⟩
      have hlt := (List.getElem?_eq_some_iff.mp hregister).1
      rw [List.getElem?_append_left hlt]
      exact hregister

theorem Numbered.define {b : Builder} (h : b.Numbered) (label : VarId) :
    (b.define label).Numbered :=
  h.congr (b.kind_define label) (b.position_define label) rfl rfl

theorem Reachable.numbered {b : Builder} (h : b.Reachable) : b.Numbered := by
  induction h with
  | new =>
      refine ⟨rfl, ?_⟩
      intro v hv
      cases hv
  | memory _ name value ih =>
      exact (ih.push (by decide) name value).congr (fun _ => rfl) (fun _ => rfl) rfl rfl
  | register _ name ih => exact ih.register name
  | label _ name ih =>
      exact (ih.push (by decide) name 0).congr (fun _ => rfl) (fun _ => rfl) rfl rfl
  | untyped _ name ih => exact ih.push (by decide) name (-1)
  | @constant b _ value ih =>
      unfold Builder.constant
      cases b.constant? value with
      | some id => exact ih
      | none =>
          exact (ih.push (by decide) (Text.Decimal.text value) value).congr
            (fun _ => rfl) (fun _ => rfl) rfl rfl
  | @entry b b' label inst _ hentry ih =>
      rw [Builder.entry_eq] at hentry
      cases hfree : b.checkFree label with
      | error e => rw [hfree] at hentry; cases hentry
      | ok _ =>
          rw [hfree] at hentry
          cases hentry
          exact (ih.define label).congr (fun _ => rfl) (fun _ => rfl) rfl rfl
  | @instruction b b' opcode dst src inst _ hinstruction ih =>
      rw [Builder.instruction_eq] at hinstruction
      cases hoperands : b.checkOperands opcode dst src with
      | error e => rw [hoperands] at hinstruction; cases hinstruction
      | ok _ =>
          rw [hoperands] at hinstruction
          cases hinstruction
          exact ih.congr (fun _ => rfl) (fun _ => rfl) rfl rfl
  | @attach b b' inst label _ _ hattach ih =>
      rw [Builder.attach_eq] at hattach
      cases hfree : b.checkFree label with
      | error e => rw [hfree] at hattach; cases hattach
      | ok _ =>
          rw [hfree] at hattach
          cases hattach
          exact (ih.define label).congr (fun _ => rfl) (fun _ => rfl) rfl rfl

end Builder

/-- The programs that a builder makes. -/
def Program.Finished (p : Program) : Prop := ∃ b : Builder, b.Reachable ∧ b.program = p

theorem Program.Finished.numbered {p : Program} (h : p.Finished) : p.Numbered := by
  obtain ⟨b, hb, rfl⟩ := h
  exact hb.numbered.numbered

end RegAlloc
