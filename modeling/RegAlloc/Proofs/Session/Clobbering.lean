import RegAlloc.Proofs.Program.Parsing
import RegAlloc.Proofs.Session.Passes

/-!
# Slots of live registers

After a successful allocation every register variable has a slot. A register that an instruction
writes and that is live after it shares its slot with no other register that is live there. A
register that is written and not live afterwards has no edge at that instruction, and its slot may
hold a live value.
-/

namespace RegAlloc

/-- What is live or written is a register variable. -/
theorem Program.isRegister_of_liveIn {p : Program} {f : Flow} (hflow : p.flow = .ok f) {v : VarId}
    {n : InstId} (h : f.LiveIn v n) : (p.var v).isRegister = true := by
  obtain ⟨m, huse⟩ := h.exists_use
  rw [p.uses_flow hflow m] at huse
  exact (Program.mem_registersOf.mp huse).2

theorem Program.isRegister_of_liveOut {p : Program} {f : Flow} (hflow : p.flow = .ok f) {v : VarId}
    {n : InstId} (h : f.LiveOut v n) : (p.var v).isRegister = true := by
  obtain ⟨_, _, hlive⟩ := h
  exact Program.isRegister_of_liveIn hflow hlive

namespace Session

variable {s t : Session} {p : Program} {f : Flow} {c : Coloring}

/-! ## Slots after a successful allocation -/

theorem Completed.exists_slotOf (h : s.Completed f (.allocated c) t) (htracks : s.Tracks p f)
    (hnumbered : p.Numbered) {v : VarId} (hv : (p.var v).isRegister = true) :
    ∃ x, t.state.slotOf v = some x ∧ s.config.palette.contains x = true := by
  obtain rfl := htracks.program_eq
  obtain ⟨position, hposition, hregister⟩ := hnumbered v hv
  have hlt : position < s.state.program.registerCount := (List.getElem?_eq_some_iff.mp hregister).1
  have hlength : t.state.slots.length = s.state.program.registerCount := by
    rw [h.state_eq]
    simp [Status.slots]
  have hslot := List.getElem?_eq_getElem (hlength ▸ hlt)
  obtain ⟨x, hx, hcontains⟩ := h.validColoring.inPalette _ (List.mem_of_getElem? hslot)
  refine ⟨x, ?_, hcontains⟩
  rw [Annotated.slotOf, congrArg Annotated.program h.state_eq, hposition, Option.bind_some, hslot,
    hx]
  rfl

/-- The two registers conflict at `n` under both rules, so their positions are joined. -/
theorem Completed.slotOf_ne (h : s.Completed f (.allocated c) t) (htracks : s.Tracks p f)
    (hflow : p.flow = .ok f) (hnumbered : p.Numbered) {n : InstId} {d w : VarId}
    (hdef : d ∈ (t.state.flow.node n).defs) (hd : d ∈ (t.state.live.get n).liveOut)
    (hw : w ∈ (t.state.live.get n).liveOut) (hne : w ≠ d) :
    ∃ x y, t.state.slotOf d = some x ∧ t.state.slotOf w = some y ∧ x ≠ y := by
  obtain rfl := htracks.program_eq
  rw [h.state_eq] at hdef hd hw
  have hsound : (s.liveOf f).Sound f := Flow.sound_solve s.config.maxSweeps htracks.sound
  have hdreg := Program.isRegister_of_liveOut hflow (hsound.liveOut hd)
  have hwreg := Program.isRegister_of_liveOut hflow (hsound.liveOut hw)
  obtain ⟨i, hi, hregi⟩ := hnumbered d hdreg
  obtain ⟨j, hj, hregj⟩ := hnumbered w hwreg
  have hij : i ≠ j := by
    rintro rfl
    exact hne (hnumbered.position_inj hwreg hdreg hj hi)
  -- only instructions of the program have live sets
  have hn : n < s.state.program.size := by
    refine Nat.lt_of_not_le fun hle => ?_
    have hsize : (s.liveOf f).size = s.state.program.size :=
      (f.size_solve s.config.maxSweeps s.state.live).trans htracks.size_live
    rw [Liveness.get_of_size_le (hsize ▸ hle)] at hd
    exact IdSet.not_mem_empty d hd
  have hconflict : s.state.program.ConflictAt f (s.liveOf f) s.config.rule n i j :=
    Rule.conflict_of_mem_defs _ (Program.mem_positions.mpr ⟨d, hdef, hi⟩)
      (Program.mem_positions.mpr ⟨d, hd, hi⟩) (Program.mem_positions.mpr ⟨w, hw, hj⟩)
  have hedge := Program.edge_interference.mpr ⟨(List.getElem?_eq_some_iff.mp hregi).1,
    (List.getElem?_eq_some_iff.mp hregj).1, hij, n, hn, hconflict⟩
  obtain ⟨x, y, hx, hy, hxy⟩ := h.validColoring.differ hedge
  have hprogram : t.state.program = s.state.program := by rw [h.state_eq]
  refine ⟨x, y, ?_, ?_, hxy⟩
  · rw [Annotated.slotOf, hprogram, hi, Option.bind_some, hx]
    rfl
  · rw [Annotated.slotOf, hprogram, hj, Option.bind_some, hy]
    rfl

/-! ## Written registers and live values -/

/-- A text whose program is allocated with a result of which `P` can be decided. -/
theorem exists_allocated_of_decide {text : String} {config : Config} {passes : List Pass}
    {P : Session → Prop} [DecidablePred P]
    (h : (match Program.parse text with
      | .ok p =>
        match ((ofAnnotated (.ofProgram p) config).applyAll passes).allocate with
        | (.ok (.allocated _), t) => decide (P t)
        | _ => false
      | .error _ => false) = true) :
    ∃ p c t, Program.parse text = .ok p ∧
      ((ofAnnotated (.ofProgram p) config).applyAll passes).allocate = (.ok (.allocated c), t) ∧
      P t := by
  split at h
  · rename_i p hparse
    split at h
    · rename_i c t hallocate
      exact ⟨p, c, t, hparse, hallocate, of_decide_eq_true h⟩
    · cases h
  · cases h

/-- In every program that is read from a text, a register that an instruction writes and that is
live after it shares its slot with no other register that is live there. -/
theorem live_slots_not_clobbered {text : String} (hparse : Program.parse text = .ok p)
    {config : Config} {passes : List Pass}
    (h : ((ofAnnotated (.ofProgram p) config).applyAll passes).allocate = (.ok (.allocated c), t)) :
    ∀ (n : InstId) (d w : VarId), d ∈ (t.state.flow.node n).defs →
      d ∈ (t.state.live.get n).liveOut → w ∈ (t.state.live.get n).liveOut → w ≠ d →
      ∃ x y, t.state.slotOf d = some x ∧ t.state.slotOf w = some y ∧ x ≠ y := by
  intro n d w hdef hd hw hne
  obtain ⟨f, hcompleted⟩ := completed_of_allocate h
  have hflow := hcompleted.program_flow
  rw [program_applyAll] at hflow
  have htracks := (tracks_ofProgram p f config).applyAll hflow passes
  have hnumbered := (Program.finished_of_parse hparse).numbered
  exact hcompleted.slotOf_ne htracks hflow hnumbered hdef hd hw hne

/-- Two constants, of which the sum is stored. -/
def sumText : String :=
  "_reg r1; _reg r2; _func main; li r1, 1; li r2, 2; add r1, r1, r2; sw r1, 0(r1);"

theorem slots_of_summands_ne :
    ∃ p c t, Program.parse sumText = .ok p ∧
      (ofAnnotated (.ofProgram p) {}).allocate = (.ok (.allocated c), t) ∧
      ∃ x y, t.state.slotOf 1 = some x ∧ t.state.slotOf 0 = some y ∧ x ≠ y := by
  obtain ⟨p, c, t, hparse, hallocate, hdef, hd, hw⟩ : ∃ p c t, Program.parse sumText = .ok p ∧
      ((ofAnnotated (.ofProgram p) {}).applyAll []).allocate = (.ok (.allocated c), t) ∧
      1 ∈ (t.state.flow.node 2).defs ∧ 1 ∈ (t.state.live.get 2).liveOut ∧
        0 ∈ (t.state.live.get 2).liveOut :=
    exists_allocated_of_decide (by decide +kernel)
  exact ⟨p, c, t, hparse, hallocate,
    live_slots_not_clobbered hparse hallocate 2 1 0 hdef hd hw (by decide)⟩

/-- Of two values the second is never read, and takes the slot of the first before the store. -/
theorem live_slot_clobbered :
    ∃ p c t, Program.parse
        "_reg r1; _reg r2; _func main; li r1, 1; li r2, 2; sw r1, 0(r1);" = .ok p ∧
      (ofAnnotated (.ofProgram p) {}).allocate = (.ok (.allocated c), t) ∧
      t.liveness = some ⟨2, true⟩ ∧ 1 ∈ (t.state.flow.node 2).defs ∧
        0 ∈ (t.state.live.get 2).liveOut ∧
        t.state.slotOf 1 = some ⟨0⟩ ∧ t.state.slotOf 0 = some ⟨0⟩ :=
  @exists_allocated_of_decide _ _ [] _ _ (by decide +kernel)

end Session

end RegAlloc
