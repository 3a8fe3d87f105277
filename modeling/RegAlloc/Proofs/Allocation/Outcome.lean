import RegAlloc.Proofs.Coloring.Core
import RegAlloc.Proofs.Program.Representation
import RegAlloc.Annotated

/-!
# Outcomes of register allocation

An allocation has one of two outcomes. Either every register variable is removed once and has a
slot, and the slots color the graph, or simplification gets stuck and no variable has a slot.
Selection itself never fails: the stack of a simplification that came to its end can always be
colored.
-/

namespace RegAlloc

namespace Program

variable {p : Program} {palette : Palette} {g : Graph} {stack : List Nat} {order : List VarId}

/-! ## The order of removal -/

theorem map_some_of_mapM (h : stack.mapM p.registerAt? = some order) :
    order.map some = stack.map p.registerAt? := by
  induction stack generalizing order with
  | nil =>
      obtain rfl : [] = order := Option.some.inj h
      rfl
  | cons position stack ih =>
      rw [List.mapM_cons] at h
      obtain ⟨v, hv, h⟩ := Option.bind_eq_some_iff.mp h
      obtain ⟨vs, hvs, h⟩ := Option.bind_eq_some_iff.mp h
      obtain rfl : v :: vs = order := Option.some.inj h
      rw [List.map_cons, List.map_cons, hv, ih hvs]

theorem map_registerAt?_range (p : Program) :
    (List.range p.registerCount).map p.registerAt? = p.registers.map some := by
  apply List.ext_getElem?
  intro i
  by_cases hi : i < p.registers.length
  · simp [registerAt?, registerCount, hi]
  · simp [registerCount, hi]

/-- The variables at all positions, in any order, are the registers in some order. -/
theorem order_perm (hstack : stack.Perm (List.range p.registerCount))
    (h : stack.mapM p.registerAt? = some order) : order.Perm p.registers := by
  have hperm := hstack.map p.registerAt?
  rw [← map_some_of_mapM h, map_registerAt?_range] at hperm
  exact (List.map_perm_map_iff (Option.some_injective _)).mp hperm

/-! ## Selection of a simplified stack -/

theorem select?_of_simplify (p : Program) (h : g.simplify palette.size = .ok stack) :
    p.select? palette g stack = some (.ok (g.select palette stack).slots) := by
  simp [select?, Graph.select_complete h]

theorem length_slots_select (hg : g.Undirected) (h : g.simplify palette.size = .ok stack) :
    (g.select palette stack).slots.length = g.size := by
  have hperm := Graph.simplify_perm h
  have hpartial : g.PartialColoring palette (g.select palette stack).colors :=
    Graph.selectFrom_partialColoring hg (g.partialColoring_blank palette)
  rw [← hpartial.size_eq]
  apply Selection.length_slots
  rw [hpartial.size_eq]
  apply Graph.isSome_colorAt_select _ (Graph.select_complete h)
  intro a ha
  exact hperm.mem_iff.mpr (List.mem_range.mpr ha)

/-- Without a dense set every register variable is removed and given a slot. -/
theorem allocate?_of_simplify (hsize : g.size = p.registerCount)
    (h : g.simplify palette.size = .ok stack) :
    ∃ order, order.Perm p.registers ∧
      p.allocate? palette g = some (.allocated ⟨order, (g.select palette stack).slots⟩) := by
  have hperm := Graph.simplify_perm h
  rw [hsize] at hperm
  obtain ⟨order, horder⟩ := @exists_mapM_registerAt? p stack fun position hposition =>
    List.mem_range.mp (hperm.mem_iff.mp hposition)
  refine ⟨order, order_perm hperm horder, ?_⟩
  simp only [allocate?, h, select?_of_simplify p h, horder, Option.map_some]

end Program

/-! ## Slots of variables -/

namespace Annotated

variable {a : Annotated} {palette : Palette} {g : Graph} {c : Coloring}

/-- The program with the slots of an outcome in place of those that it had. -/
def recorded (a : Annotated) (status : Status) : Annotated :=
  { a with slots := status.slots a.program.registerCount }

theorem allocate?_eq_recorded {status : Status}
    (h : a.program.allocate? palette g = some status) :
    a.allocate? palette g = some (status, a.recorded status) := by
  rw [allocate?, h]
  rfl

theorem slotOf_recorded_failed (a : Annotated) (e : AllocError) (v : VarId) :
    (a.recorded (.failed e)).slotOf v = none := by
  rw [slotOf, Option.bind_eq_none_iff]
  intro position _
  simp only [recorded, Status.slots, List.getElem?_replicate]
  split <;> rfl

/-- A register variable has the slot that is listed at its position. -/
theorem slotOf_recorded_allocated (hnumbered : a.program.Numbered)
    (hlength : c.colors.length = a.program.registerCount) {v : VarId}
    (hv : (a.program.var v).isRegister = true) :
    ∃ position slot, (a.program.var v).position = some position ∧
      c.colors[position]? = some slot ∧ (a.recorded (.allocated c)).slotOf v = some slot := by
  obtain ⟨position, hposition, hregister⟩ := hnumbered v hv
  have hlt : position < a.program.registerCount := (List.getElem?_eq_some_iff.mp hregister).1
  have hslot : c.colors[position]? = some c.colors[position] :=
    List.getElem?_eq_getElem (hlength ▸ hlt)
  refine ⟨position, c.colors[position], hposition, hslot, ?_⟩
  have hprogram : (a.recorded (.allocated c)).program = a.program := rfl
  rw [slotOf, hprogram, hposition, Option.bind_some]
  simp [recorded, Status.slots, hlt]

/-- An allocation either removes every register variable, gives it the slot listed at its position
and leaves a valid coloring, or runs out of registers and leaves no slot. -/
theorem allocation_sound_or_closed (hprogram : a.program.Finished) (hg : g.isSymmetric = true)
    (hsize : g.size = a.program.registerCount) (palette : Palette) :
    (∃ status b, a.allocate? palette g = some (status, b) ∧
      b.program = a.program ∧ b.flow = a.flow ∧ b.live = a.live ∧
      ((∃ c, status = .allocated c ∧ c.order.Perm a.program.registers ∧ c.order.Nodup ∧
          (∀ v, v ∈ c.order ↔ (a.program.var v).isRegister = true) ∧
          c.colors.length = a.program.registerCount ∧
          (∀ v, (a.program.var v).isRegister = true → ∃ position slot,
            (a.program.var v).position = some position ∧ c.colors[position]? = some slot ∧
              b.slotOf v = some slot) ∧
          b.isValidColoring? palette g = some true) ∨
        (∃ remaining, status = .failed (.insufficientRegisters remaining palette.size) ∧
          ∀ v, b.slotOf v = none))) ∧
    ∀ stack, g.simplify palette.size = .ok stack →
      ∃ colors, a.program.select? palette g stack = some (.ok colors) := by
  have hundirected := Graph.isSymmetric_iff.mp hg
  refine ⟨?_, fun stack hstack => ⟨_, a.program.select?_of_simplify hstack⟩⟩
  cases hstack : g.simplify palette.size with
  | error remaining =>
      have hstatus : a.program.allocate? palette g =
          some (.failed (.insufficientRegisters remaining palette.size)) :=
        Program.allocate?_eq_insufficientRegisters_iff.mpr ⟨rfl, hstack⟩
      refine ⟨_, _, allocate?_eq_recorded hstatus, rfl, rfl, rfl, Or.inr ⟨remaining, rfl, ?_⟩⟩
      exact a.slotOf_recorded_failed (.insufficientRegisters remaining palette.size)
  | ok stack =>
      obtain ⟨order, horder, hstatus⟩ := Program.allocate?_of_simplify hsize hstack
      have hlength := (Program.length_slots_select hundirected hstack).trans hsize
      refine ⟨_, _, allocate?_eq_recorded hstatus, rfl, rfl, rfl, Or.inl ⟨_, rfl, horder, ?_, ?_,
        hlength, fun v hv => slotOf_recorded_allocated hprogram.numbered hlength hv, ?_⟩⟩
      · exact horder.nodup_iff.mpr hprogram.nodup_registers
      · intro v
        rw [horder.mem_iff, hprogram.mem_registers_iff]
      · exact (Program.allocate?_validColoring hundirected hsize hstatus).isValidColoring?

/-- Registers of which any two conflict, each with a slot that it may not keep. -/
def crowd (n : Nat) : Annotated :=
  let p := (Builder.made (List.replicate n (.register "r"))).program
  { ofProgram p with slots := List.replicate n (some ⟨3⟩) }

/-- The graph in which any two of `n` nodes are joined. -/
def crowdGraph (n : Nat) : Graph := (Graph.empty n).joinAll (List.range n)

/-- Four slots are enough for four registers, and with five the old slots are gone. -/
theorem crowd_sound_or_closed :
    (∃ b c, (crowd 4).allocate? .standard (crowdGraph 4) = some (.allocated c, b) ∧
      c.order.Perm [0, 1, 2, 3] ∧ b.isValidColoring? .standard (crowdGraph 4) = some true) ∧
    ∃ b, (crowd 5).allocate? .standard (crowdGraph 5) =
        some (.failed (.insufficientRegisters 5 4), b) ∧ ∀ v, b.slotOf v = none := by
  have hfinished : ∀ n, Builder.Legal (List.replicate n (.register "r")) →
      (crowd n).program.Finished := fun n h => ⟨_, Builder.reachable_made h, rfl⟩
  constructor
  · obtain ⟨status, b, hallocate, _, _, _, ⟨c, rfl, horder, _, _, _, _, hvalid⟩ | ⟨n, rfl, _⟩⟩ :=
      (@allocation_sound_or_closed (crowd 4) (crowdGraph 4) (hfinished 4 (by decide))
        (by decide) (by decide) .standard).1
    · exact ⟨b, c, hallocate, horder, hvalid⟩
    · have hsuccess :
          ((crowd 4).allocate? .standard (crowdGraph 4)).any (·.1.isSuccess) = true := by decide
      rw [hallocate] at hsuccess
      cases hsuccess
  · have hstatus : ((crowd 5).allocate? .standard (crowdGraph 5)).map Prod.fst =
        some (.failed (.insufficientRegisters 5 4)) := by decide
    obtain ⟨status, b, hallocate, _, _, _, ⟨c, rfl, _⟩ | ⟨n, rfl, hnone⟩⟩ :=
      (@allocation_sound_or_closed (crowd 5) (crowdGraph 5) (hfinished 5 (by decide))
        (by decide) (by decide) .standard).1
    · rw [hallocate] at hstatus
      cases hstatus
    · rw [hallocate] at hstatus
      cases hstatus
      exact ⟨b, hallocate, hnone⟩

end Annotated

end RegAlloc
