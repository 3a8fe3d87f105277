import RegAlloc.Proofs.Program.Representation
import RegAlloc.Proofs.Session.Passes

/-!
# Which registers interfere

Whatever passes a program has gone through, the sets that they left hold register variables only. A
register variable and its position determine each other, so the interference graph joins two
positions exactly if the rule lets the variables at these positions conflict at some instruction.
-/

namespace RegAlloc

/-! ## Positions and variables -/

/-- A set has a register variable exactly if its position is among those of the set. -/
theorem Program.Finished.mem_positions_iff {p : Program} (hp : p.Finished) {s : IdSet} {x : Nat}
    {v : VarId} (hx : p.registerAt? x = some v) : x ∈ p.positions s ↔ v ∈ s := by
  rw [Program.mem_positions]
  constructor
  · rintro ⟨w, hw, hposition⟩
    obtain ⟨y, hy, hregister⟩ := hp.numbered w (hp.isRegister_of_position hposition)
    rw [hposition] at hy
    cases hy
    rw [show p.registers[x]? = some v from hx] at hregister
    cases hregister
    exact hw
  · intro hv
    exact ⟨v, hv, hp.position_eq hx⟩

/-! ## Sets of registers -/

namespace Annotated

/-- The variables that instructions read or write, and those that are live before or after them, are
registers. -/
structure RegistersOnly (a : Annotated) : Prop where
  uses : ∀ {n : InstId} {v : VarId}, v ∈ (a.flow.node n).uses → (a.program.var v).isRegister = true
  defs : ∀ {n : InstId} {v : VarId}, v ∈ (a.flow.node n).defs → (a.program.var v).isRegister = true
  liveIn : ∀ {n : InstId} {v : VarId}, v ∈ (a.live.get n).liveIn →
    (a.program.var v).isRegister = true
  liveOut : ∀ {n : InstId} {v : VarId}, v ∈ (a.live.get n).liveOut →
    (a.program.var v).isRegister = true

variable {a : Annotated}

theorem registersOnly_ofProgram (p : Program) : (ofProgram p).RegistersOnly where
  uses hv := by simp [ofProgram] at hv
  defs hv := by simp [ofProgram] at hv
  liveIn hv := by simp [ofProgram] at hv
  liveOut hv := by simp [ofProgram] at hv

theorem RegistersOnly.buildFlow (h : a.RegistersOnly) {f : Flow} (hflow : a.program.flow = .ok f) :
    { a with flow := f }.RegistersOnly where
  uses {n v} hv := by
    change v ∈ (f.node n).uses at hv
    rw [Program.uses_flow hflow] at hv
    exact (Program.mem_registersOf.mp hv).2
  defs {n v} hv := by
    change v ∈ (f.node n).defs at hv
    rw [Program.defs_flow hflow] at hv
    exact (Program.mem_registersOf.mp hv).2
  liveIn := h.liveIn
  liveOut := h.liveOut

/-- One update takes its registers from the live sets of other instructions and from what the
instruction reads. -/
theorem RegistersOnly.transfer (h : a.RegistersOnly) (i : InstId) :
    { a with live := a.live.set i (a.flow.transfer a.live i) }.RegistersOnly := by
  have hout : ∀ v ∈ (a.flow.transfer a.live i).liveOut, (a.program.var v).isRegister = true := by
    intro v hv
    obtain ⟨s, _, hlive⟩ := Flow.mem_liveOut_transfer.mp hv
    exact h.liveIn hlive
  have hin : ∀ v ∈ (a.flow.transfer a.live i).liveIn, (a.program.var v).isRegister = true := by
    intro v hv
    rcases Flow.mem_liveIn_transfer.mp hv with huse | ⟨hlive, _⟩
    · exact h.uses huse
    · exact hout v hlive
  refine ⟨h.uses, h.defs, ?_, ?_⟩
  · intro n v hv
    simp only [Liveness.get_set] at hv
    split at hv
    · exact hin v hv
    · exact h.liveIn hv
  · intro n v hv
    simp only [Liveness.get_set] at hv
    split at hv
    · exact hout v hv
    · exact h.liveOut hv

theorem RegistersOnly.solve (h : a.RegistersOnly) (cap : Nat) : (a.solve cap).2.RegistersOnly :=
  @Flow.solve_preserves a.flow (fun l => { a with live := l }.RegistersOnly)
    (fun _ i hl => hl.transfer i) cap _ h

theorem RegistersOnly.slots (h : a.RegistersOnly) (slots : List (Option Slot)) :
    { a with slots := slots }.RegistersOnly :=
  ⟨h.uses, h.defs, h.liveIn, h.liveOut⟩

end Annotated

namespace Session

/-! ## Passes keep the sets of registers -/

theorem registersOnly_perform {s : Session} (h : s.state.RegistersOnly) (c : Call) :
    (s.perform c).state.RegistersOnly := by
  cases hflow : s.state.program.flow with
  | error e =>
      rw [perform_of_error hflow]
      exact h
  | ok f =>
      obtain ⟨⟨slots, hstate⟩, _⟩ := perform_analysis hflow c
      rw [hstate]
      exact ((h.buildFlow hflow).solve s.config.maxSweeps).slots slots

theorem registersOnly_apply {s : Session} (h : s.state.RegistersOnly) (pass : Pass) :
    (s.apply pass).state.RegistersOnly := by
  cases pass with
  | buildFlow =>
      rw [apply_buildFlow]
      cases hflow : s.state.program.flow with
      | error e => exact h
      | ok f => exact h.buildFlow hflow
  | solve cap => exact h.solve cap
  | interfere rule => exact h
  | color palette graph =>
      simp only [apply, Annotated.allocate?]
      cases s.state.program.allocate? palette graph with
      | none => exact h
      | some status => exact h.slots _
  | reopen config => exact h
  | call c => exact registersOnly_perform h c

theorem registersOnly_applyAll {s : Session} (h : s.state.RegistersOnly) (passes : List Pass) :
    (s.applyAll passes).state.RegistersOnly := by
  induction passes generalizing s with
  | nil => exact h
  | cons pass passes ih => exact ih (registersOnly_apply h pass)

end Session

/-! ## The graph -/

namespace Annotated

variable {a : Annotated} {x y : Nat} {v w : VarId}

theorem size_interference (a : Annotated) (rule : Rule) :
    (a.interference rule).size = a.program.registerCount :=
  a.program.size_interference a.flow a.live rule

theorem adjacent_interference_self (a : Annotated) (rule : Rule) (x : Nat) :
    (a.interference rule).adjacent x x = false := by
  rw [Bool.eq_false_iff]
  intro hx
  have hlt := Graph.lt_of_adjacent hx
  exact (a.program.interference_undirected a.flow a.live rule).irrefl x ⟨hlt, hlt, hx⟩

/-- Two positions are joined exactly where the rule lets them conflict. -/
theorem adjacent_interference_iff {rule : Rule} (hx : a.program.registerAt? x = some v)
    (hy : a.program.registerAt? y = some w) (hne : x ≠ y) :
    (a.interference rule).adjacent x y = true ↔
      ∃ n < a.program.size, a.program.ConflictAt a.flow a.live rule n x y := by
  have hxlt : x < a.program.registerCount := (List.getElem?_eq_some_iff.mp hx).1
  have hylt : y < a.program.registerCount := (List.getElem?_eq_some_iff.mp hy).1
  have hedge : (a.interference rule).Edge x y ↔ (a.interference rule).adjacent x y = true := by
    simp [Graph.Edge, size_interference, hxlt, hylt]
  have hiff := @Program.edge_interference a.program a.flow a.live rule x y
  rw [← hedge]
  exact hiff.trans ⟨fun h => h.2.2.2, fun h => ⟨hxlt, hylt, hne, h⟩⟩

/-- After any passes the sets of a program hold registers only, and the graph of a rule joins two
registers exactly if the rule asks for it at some instruction. -/
theorem interference_exact {p : Program} (hp : p.Finished) (config : Config)
    (passes : List Pass) :
    let a := ((Session.ofAnnotated (.ofProgram p) config).applyAll passes).state
    a.RegistersOnly ∧
    (∀ rule, (a.interference rule).size = p.registerCount) ∧
    (∀ rule x, (a.interference rule).adjacent x x = false) ∧
    ∀ (x y : Nat) (v w : VarId), x ≠ y → p.registerAt? x = some v → p.registerAt? y = some w →
      ((a.interference .defLiveOut).adjacent x y = true ↔ ∃ n < p.size,
        (v ∈ (a.flow.node n).defs ∧ v ∈ (a.live.get n).liveOut ∧ w ∈ (a.live.get n).liveOut) ∨
        (w ∈ (a.flow.node n).defs ∧ w ∈ (a.live.get n).liveOut ∧ v ∈ (a.live.get n).liveOut)) ∧
      ((a.interference .allLive).adjacent x y = true ↔ ∃ n < p.size,
        (v ∈ (a.live.get n).liveIn ∧ w ∈ (a.live.get n).liveIn) ∨
        (v ∈ (a.live.get n).liveOut ∧ w ∈ (a.live.get n).liveOut)) := by
  intro a
  have hprogram : a.program = p :=
    (Session.ofAnnotated (.ofProgram p) config).program_applyAll passes
  refine ⟨Session.registersOnly_applyAll (registersOnly_ofProgram p) passes,
    fun rule => hprogram ▸ a.size_interference rule, a.adjacent_interference_self, ?_⟩
  intro x y v w hne hx hy
  have hmemx : ∀ s, x ∈ a.program.positions s ↔ v ∈ s := fun s => by
    rw [hprogram, hp.mem_positions_iff hx]
  have hmemy : ∀ s, y ∈ a.program.positions s ↔ w ∈ s := fun s => by
    rw [hprogram, hp.mem_positions_iff hy]
  rw [← hprogram] at hx hy ⊢
  refine ⟨(adjacent_interference_iff hx hy hne).trans ?_,
    (adjacent_interference_iff hx hy hne).trans ?_⟩
  · simp only [Program.ConflictAt, Rule.Conflict, hmemx, hmemy]
    refine exists_congr fun n => and_congr_right fun _ => ?_
    constructor
    · rintro ⟨hv | hw, hvout, hwout⟩
      · exact Or.inl ⟨hv, hvout, hwout⟩
      · exact Or.inr ⟨hw, hwout, hvout⟩
    · rintro (⟨hv, hvout, hwout⟩ | ⟨hw, hwout, hvout⟩)
      · exact ⟨Or.inl hv, hvout, hwout⟩
      · exact ⟨Or.inr hw, hvout, hwout⟩
  · simp only [Program.ConflictAt, Rule.Conflict, hmemx, hmemy]

/-- The second sweep over the loop finds out that `r1` is live across the write of `r2`. -/
theorem loop_registers_interfere :
    ∃ p, Program.parse Session.loopText = .ok p ∧
      let a := ((Session.ofAnnotated (.ofProgram p) {}).applyAll [.buildFlow, .solve 2]).state
      a.RegistersOnly ∧ (a.interference .defLiveOut).adjacent 0 1 = true := by
  obtain ⟨p, hparse, hfirst, hsecond, hsize, hdef, hlive, hacross⟩ :
      ∃ p, Program.parse Session.loopText = .ok p ∧ p.registerAt? 0 = some 0 ∧
        p.registerAt? 1 = some 1 ∧ 3 < p.size ∧
        let a := ((Session.ofAnnotated (.ofProgram p) {}).applyAll [.buildFlow, .solve 2]).state
        1 ∈ (a.flow.node 3).defs ∧ 1 ∈ (a.live.get 3).liveOut ∧ 0 ∈ (a.live.get 3).liveOut :=
    exists_ok_of_decide (by decide +kernel)
  obtain ⟨honly, _, _, hjoined⟩ :=
    interference_exact (Program.finished_of_parse hparse) {} [.buildFlow, .solve 2]
  have hconflict := (hjoined 0 1 0 1 (by decide) hfirst hsecond).1
  refine ⟨p, hparse, honly, ?_⟩
  generalize ((Session.ofAnnotated (.ofProgram p) {}).applyAll [.buildFlow, .solve 2]).state = a
    at hdef hlive hacross hconflict ⊢
  exact hconflict.mpr ⟨3, hsize, Or.inr ⟨hdef, hlive, hacross⟩⟩

end Annotated

end RegAlloc
