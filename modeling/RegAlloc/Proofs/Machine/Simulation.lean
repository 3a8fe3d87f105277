import Mathlib.Data.List.Forall2
import RegAlloc.Proofs.Machine.Semantics
import RegAlloc.Proofs.Session.Clobbering

/-!
# Slots simulate register variables

An allocated program runs over its slots as it runs over its register variables, as long as each
instruction on the way writes only what is live after it. The states agree on memory and control,
and on the registers that are live where control is.
-/

namespace RegAlloc

/-- The live sets solve the equations of the program, and no instruction writes a live register into
the slot of another one. -/
structure Annotated.Faithful (a : Annotated) : Prop where
  uses_eq : ∀ n, (a.flow.node n).uses = a.program.registersOf (a.program.instr n).src
  defs_eq : ∀ n, (a.flow.node n).defs = a.program.registersOf (a.program.instr n).dst
  solves : a.live.Solves a.flow
  home_ne : ∀ {n : InstId} {d w : VarId}, d ∈ (a.flow.node n).defs →
    d ∈ (a.live.get n).liveOut → w ∈ (a.live.get n).liveOut → w ≠ d → a.home d ≠ a.home w

/-- A state over register variables and one over slots, at the same instruction and with the same
memory. Each register that is live there has its value in its slot. -/
structure Agree {V M : Type} (a : Annotated) (m : Machine VarId V M) (m' : Machine Slot V M) :
    Prop where
  pc_eq : m'.pc = m.pc
  memory_eq : m'.memory = m.memory
  regs_eq : ∀ {n : InstId}, m.pc = some n → ∀ v ∈ (a.live.get n).liveIn,
    m'.regs (a.home v) = m.regs v

namespace Annotated.Faithful

variable {a : Annotated} {V M : Type} {I : Interpretation V M} {m : Machine VarId V M}
  {m' : Machine Slot V M} {n : InstId}

theorem mem_reads (h : a.Faithful) {v : VarId} :
    v ∈ (a.code n).reads ↔ v ∈ (a.flow.node n).uses := by
  rw [h.uses_eq]
  exact mem_filterMap_operandOf

theorem mem_writes (h : a.Faithful) {v : VarId} :
    v ∈ (a.code n).writes ↔ v ∈ (a.flow.node n).defs := by
  rw [h.defs_eq]
  exact mem_filterMap_operandOf

/-! ## One step -/

/-- What an instruction reads is live before it, so both states see the same values. -/
theorem effect_eq (h : a.Faithful) (hagree : Agree a m m') (hpc : m.pc = some n) :
    m'.effect I n (a.physicalCode n) = m.effect I n (a.code n) := by
  have hvalues : (a.physicalCode n).src.map (Operand.map m'.regs) =
      (a.code n).src.map (Operand.map m.regs) := by
    apply Line.values_rename
    intro v hv
    apply hagree.regs_eq hpc
    exact h.solves.mem_liveIn.mpr (Or.inl (h.mem_reads.mp hv))
  unfold Machine.effect
  rw [hvalues, hagree.memory_eq]
  rfl

/-- A register that is live afterwards was written just now, or it was live before and its slot is
not the one that was written. -/
theorem agree_write (h : a.Faithful) (hagree : Agree a m m') (hpc : m.pc = some n)
    (hdefs : ∀ v ∈ (a.flow.node n).defs, v ∈ (a.live.get n).liveOut) {e : Effect V M}
    (hnext : ∀ s ∈ e.next, s ∈ (a.flow.node n).succs) :
    Agree a (m.write (a.code n) e) (m'.write (a.physicalCode n) e) := by
  refine ⟨rfl, rfl, ?_⟩
  intro s hs v hv
  have hout : v ∈ (a.live.get n).liveOut := h.solves.mem_liveOut.mpr ⟨s, hnext s hs, hv⟩
  have hwrites : (a.physicalCode n).writes = (a.code n).writes.map a.home :=
    Line.writes_rename a.home (a.code n)
  by_cases hdef : v ∈ (a.flow.node n).defs
  · have hsymbolic : v ∈ (a.code n).writes := h.mem_writes.mpr hdef
    have hphysical : a.home v ∈ (a.physicalCode n).writes := by
      rw [hwrites]
      exact List.mem_map_of_mem hsymbolic
    simp only [Machine.write, hsymbolic, hphysical, ite_true]
  · have hsymbolic : v ∉ (a.code n).writes := fun hv => hdef (h.mem_writes.mp hv)
    have hphysical : a.home v ∉ (a.physicalCode n).writes := by
      rw [hwrites]
      intro hmem
      -- a written register in the slot of `v` is live afterwards, as `v` is
      obtain ⟨d, hd, heq⟩ := List.mem_map.mp hmem
      have hd := h.mem_writes.mp hd
      have hne : v ≠ d := fun hvd => hdef (hvd ▸ hd)
      exact h.home_ne hd (hdefs d hd) hout hne heq
    simp only [Machine.write, hsymbolic, hphysical, ite_false]
    apply hagree.regs_eq hpc
    exact h.solves.mem_liveIn.mpr (Or.inr ⟨hout, hdef⟩)

/-- Both states take a step to states that agree, or neither takes one. -/
theorem agree_step (h : a.Faithful) (hagree : Agree a m m')
    (hdefs : ∀ n, m.pc = some n → m.step I a.code ≠ none →
      ∀ v ∈ (a.flow.node n).defs, v ∈ (a.live.get n).liveOut) :
    Option.Rel (Agree a) (m.step I a.code) (m'.step I a.physicalCode) := by
  cases hpc : m.pc with
  | none =>
      have hpc' : m'.pc = none := hagree.pc_eq.trans hpc
      simp only [Machine.step, hpc, hpc']
      exact .none
  | some n =>
      have hpc' : m'.pc = some n := hagree.pc_eq.trans hpc
      have heffect := h.effect_eq (I := I) hagree hpc
      by_cases hnext : ∀ s ∈ (m.effect I n (a.code n)).next, s ∈ (a.flow.node n).succs
      · have hsymbolic : m.step I a.code =
            some (m.write (a.code n) (m.effect I n (a.code n))) := by
          simp only [Machine.step, hpc]
          exact ite_cond_eq_true _ _ (eq_true hnext)
        have hphysical : m'.step I a.physicalCode =
            some (m'.write (a.physicalCode n) (m.effect I n (a.code n))) := by
          simp only [Machine.step, hpc', heffect]
          exact ite_cond_eq_true _ _ (eq_true hnext)
        have htaken := hdefs n hpc (by rw [hsymbolic]; exact Option.some_ne_none _)
        rw [hsymbolic, hphysical]
        exact .some (h.agree_write hagree hpc htaken hnext)
      · have hsymbolic : m.step I a.code = none := by
          simp only [Machine.step, hpc]
          exact ite_cond_eq_false _ _ (eq_false hnext)
        have hphysical : m'.step I a.physicalCode = none := by
          simp only [Machine.step, hpc', heffect]
          exact ite_cond_eq_false _ _ (eq_false hnext)
        rw [hsymbolic, hphysical]
        exact .none

/-! ## Runs -/

theorem agree_trace (h : a.Faithful) (hagree : Agree a m m') (k : Nat)
    (hdefs : ∀ n ∈ m.executed I a.code k,
      ∀ v ∈ (a.flow.node n).defs, v ∈ (a.live.get n).liveOut) :
    List.Forall₂ (Agree a) (m.trace I a.code k) (m'.trace I a.physicalCode k) := by
  induction k generalizing m m' with
  | zero => exact .cons hagree .nil
  | succ k ih =>
      have hfirst : ∀ n, m.pc = some n → m.step I a.code ≠ none →
          ∀ v ∈ (a.flow.node n).defs, v ∈ (a.live.get n).liveOut := by
        intro n hpc hstep
        obtain ⟨x, hx⟩ := Option.ne_none_iff_exists'.mp hstep
        apply hdefs n
        simp [Machine.executed, hx, hpc]
      have hstep := h.agree_step (I := I) hagree hfirst
      simp only [Machine.trace]
      cases hx : m.step I a.code with
      | none =>
          rw [hx] at hstep
          cases hx' : m'.step I a.physicalCode with
          | none => exact .cons hagree .nil
          | some x' =>
              rw [hx'] at hstep
              cases hstep
      | some x =>
          rw [hx] at hstep
          cases hx' : m'.step I a.physicalCode with
          | none =>
              rw [hx'] at hstep
              cases hstep
          | some x' =>
              rw [hx'] at hstep
              cases hstep with
              | some hnext =>
                  refine .cons hagree (ih hnext ?_)
                  intro n hn
                  apply hdefs n
                  simp only [Machine.executed, hx]
                  exact List.mem_append_right _ hn

end Annotated.Faithful

/-! ## Allocated programs -/

namespace Session

theorem Completed.faithful {s t : Session} {p : Program} {f : Flow} {c : Coloring}
    (h : s.Completed f (.allocated c) t) (htracks : s.Tracks p f) (hflow : p.flow = .ok f)
    (hnumbered : p.Numbered) (hconverged : (s.summaryOf f).converged = true) :
    t.state.Faithful := by
  have hprogram : t.state.program = p := by
    rw [h.state_eq]
    exact htracks.program_eq
  have hstate : t.state.flow = f ∧ t.state.live = s.liveOf f := by
    rw [h.state_eq]
    exact ⟨rfl, rfl⟩
  have hsize : f.size = s.state.live.size := (Program.size_flow hflow).trans htracks.size_live.symm
  refine ⟨?_, ?_, ?_, ?_⟩
  · rw [hprogram, hstate.1]
    exact Program.uses_flow hflow
  · rw [hprogram, hstate.1]
    exact Program.defs_flow hflow
  · rw [hstate.1, hstate.2]
    exact Flow.solves_of_converged (Nat.le_of_eq hsize) hconverged
  · intro n d w hdef hd hw hne
    obtain ⟨x, y, hx, hy, hxy⟩ := h.slotOf_ne htracks hflow hnumbered hdef hd hw hne
    rw [Annotated.home, hx, Annotated.home, hy]
    exact hxy

/-- After an allocation with converged live sets the program over slots goes through the states of
the program over register variables: the same instructions, the same memory, and the same values of
the live registers. -/
theorem slots_simulate_registers {p : Program} (hfinished : p.Finished) {config : Config}
    {passes : List Pass} {c : Coloring} {t : Session}
    (h : ((ofAnnotated (.ofProgram p) config).applyAll passes).allocate = (.ok (.allocated c), t))
    {summary : Summary} (hliveness : t.liveness = some summary)
    (hconverged : summary.converged = true) :
    t.state.program = p ∧
      (∀ v, (p.var v).isRegister = true →
        t.state.slotOf v = some (t.state.home v) ∧
          t.config.palette.contains (t.state.home v) = true) ∧
      ∀ {V M : Type} (I : Interpretation V M) (m : Machine VarId V M) (m' : Machine Slot V M),
        Agree t.state m m' → ∀ k,
        (∀ n ∈ m.executed I t.state.code k,
          ∀ v ∈ (t.state.flow.node n).defs, v ∈ (t.state.live.get n).liveOut) →
        List.Forall₂ (Agree t.state) (m.trace I t.state.code k)
          (m'.trace I t.state.physicalCode k) := by
  obtain ⟨f, hcompleted⟩ := completed_of_allocate h
  have hprogram : ((ofAnnotated (.ofProgram p) config).applyAll passes).state.program = p :=
    program_applyAll _ passes
  have hflow := hcompleted.program_flow
  rw [hprogram] at hflow
  have htracks := (tracks_ofProgram p f config).applyAll hflow passes
  obtain rfl := Option.some.inj (hcompleted.liveness_eq.symm.trans hliveness)
  have hfaithful := hcompleted.faithful htracks hflow hfinished.numbered hconverged
  refine ⟨?_, ?_, ?_⟩
  · rw [hcompleted.state_eq]
    exact hprogram
  · intro v hv
    obtain ⟨x, hx, hcontains⟩ := hcompleted.exists_slotOf htracks hfinished.numbered hv
    rw [Annotated.home, hx, hcompleted.config_eq]
    exact ⟨rfl, hcontains⟩
  · intro V M I m m' hagree k hdefs
    exact hfaithful.agree_trace hagree k hdefs

end Session

/-- Straight-line arithmetic, with a memory of one cell. -/
def Interpretation.straightLine (p : Program) : Interpretation Int Int :=
  fun n opcode values memory =>
  let next := if n + 1 < p.size then some (n + 1) else none
  match opcode, values with
  | some .li, [.fixed v] => ⟨(p.var v).value, memory, next⟩
  | some .add, [.register x, .register y] => ⟨x + y, memory, next⟩
  | some .sw, [.register x, _, _] => ⟨0, x, next⟩
  | _, _ => ⟨0, memory, next⟩

namespace Session

/-- A sum of two constants is computed over slots and stored. -/
theorem slots_simulate_sum :
    ∃ p c t, Program.parse sumText = .ok p ∧
      (ofAnnotated (.ofProgram p) {}).allocate = (.ok (.allocated c), t) ∧
      let I := Interpretation.straightLine t.state.program
      let m : Machine VarId Int Int := ⟨some 1, fun _ => 0, 0⟩
      let m' : Machine Slot Int Int := ⟨some 1, fun _ => 0, 0⟩
      m.executed I t.state.code 4 = [1, 2, 3, 4] ∧
        List.Forall₂ (Agree t.state) (m.trace I t.state.code 4)
          (m'.trace I t.state.physicalCode 4) := by
  obtain ⟨p, c, t, hparse, hallocate, hliveness, hexecuted, hdefs⟩ :
      ∃ p c t, Program.parse sumText = .ok p ∧
      ((ofAnnotated (.ofProgram p) {}).applyAll []).allocate = (.ok (.allocated c), t) ∧
      t.liveness = some ⟨2, true⟩ ∧
      Machine.executed (.straightLine t.state.program) t.state.code 4
        (⟨some 1, fun _ => 0, 0⟩ : Machine VarId Int Int) = [1, 2, 3, 4] ∧
      ∀ n ∈ [1, 2, 3, 4], ∀ v ∈ (t.state.flow.node n).defs.toList,
        v ∈ (t.state.live.get n).liveOut :=
    exists_allocated_of_decide (by decide +kernel)
  refine ⟨p, c, t, hparse, hallocate, hexecuted, ?_⟩
  refine (slots_simulate_registers (Program.finished_of_parse hparse) hallocate hliveness rfl).2.2
    _ _ _ ⟨rfl, rfl, fun _ _ _ => rfl⟩ 4 ?_
  rw [hexecuted]
  exact hdefs

end Session

end RegAlloc
