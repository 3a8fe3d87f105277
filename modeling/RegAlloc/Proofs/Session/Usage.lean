import Mathlib.Order.Bounds.Basic
import RegAlloc.Proofs.Allocation.Outcome
import RegAlloc.Proofs.Coloring.FirstFit
import RegAlloc.Proofs.Session.Passes

/-!
# Slots in use

A successful allocation gives to each register variable the least slot that none of its neighbors
removed after it has. The slots in use are then numbered from 1 without gaps, so that their number
is the highest slot. A session keeps this number for as long as it keeps the allocation.
-/

namespace RegAlloc

/-- Two register variables stand at positions that a graph joins. -/
def Program.Joined (p : Program) (g : Graph) (v w : VarId) : Prop :=
  ∃ x y, (p.var v).position = some x ∧ (p.var w).position = some y ∧ g.Edge x y

namespace Coloring

/-- The slot that a coloring lists at the position of a variable. -/
def slotOf (c : Coloring) (p : Program) (v : VarId) : Option Slot :=
  (p.var v).position.bind fun position => c.colors[position]?

/-- The highest number of a slot in use. -/
def highest (c : Coloring) : Nat := c.colors.toFinset.sup Slot.number

/-- Each variable has the least slot that no neighbor after it in the order of removal has, and the
slots in use are the first ones. -/
structure FirstFit (c : Coloring) (p : Program) (palette : Palette) (g : Graph) : Prop where
  order_perm : c.order.Perm p.registers
  least : ∀ front v later, c.order = front ++ v :: later → ∃ slot, c.slotOf p v = some slot ∧
    IsLeast {n | 1 ≤ n ∧ ∀ w ∈ later, p.Joined g v w → (c.slotOf p w).map Slot.number ≠ some n}
      slot.number
  used : ∀ n, (∃ slot ∈ c.colors, slot.number = n) ↔ 1 ≤ n ∧ n ≤ c.registersUsed
  eq_highest : c.registersUsed = c.highest
  le_size : c.registersUsed ≤ palette.size
  le_degree : c.registersUsed ≤ g.maxDegree + 1

end Coloring

namespace Program

variable {p : Program} {palette : Palette} {g : Graph} {c : Coloring} {stack : List Nat}

/-! ## The order of removal -/

theorem exists_stack_of_allocate? (h : p.allocate? palette g = some (.allocated c)) :
    ∃ stack, g.simplify palette.size = .ok stack ∧ stack.mapM p.registerAt? = some c.order ∧
      c.colors = (g.select palette stack).slots := by
  obtain ⟨stack, hstack, _, _⟩ := allocate?_eq_allocated h
  simp only [allocate?, hstack, select?_of_simplify p hstack] at h
  obtain ⟨order, horder, hstatus⟩ := Option.map_eq_some_iff.mp h
  cases hstatus
  exact ⟨stack, hstack, horder, rfl⟩

/-- Where a variable stands in the order of removal, its position stands on the stack. -/
theorem exists_split_of_mapM {order front later : List VarId} {v : VarId}
    (h : stack.mapM p.registerAt? = some order) (hsplit : order = front ++ v :: later) :
    ∃ before x rest, stack = before ++ x :: rest ∧ p.registerAt? x = some v ∧
      rest.map p.registerAt? = later.map some := by
  have hmap := map_some_of_mapM h
  rw [hsplit, List.map_append, List.map_cons, eq_comm, List.map_eq_append_iff] at hmap
  obtain ⟨before, rest, rfl, _, hrest⟩ := hmap
  obtain ⟨x, rest, rfl, hx, hrest⟩ := List.map_eq_cons_iff.mp hrest
  exact ⟨before, x, rest, rfl, hx, hrest⟩

/-! ## Slots of variables -/

section Selected

variable (hp : p.Finished) (hg : g.Undirected) (hstack : g.simplify palette.size = .ok stack)
  (hcolors : c.colors = (g.select palette stack).slots)

include hp hg hstack hcolors

theorem slotOf_eq_colorAt {x : Nat} {v : VarId} (hx : p.registerAt? x = some v) :
    c.slotOf p v = Graph.colorAt (g.select palette stack).colors x := by
  rw [Coloring.slotOf, hp.position_eq hx, Option.bind_some, hcolors]
  exact Graph.getElem?_slots_select hg (Graph.simplify_perm hstack) (Graph.select_complete hstack) x

/-- A variable has the least slot that no neighbor removed after it has. -/
theorem isLeast_slotOf (horder : stack.mapM p.registerAt? = some c.order)
    {front later : List VarId} {v : VarId} (hsplit : c.order = front ++ v :: later) :
    ∃ slot, c.slotOf p v = some slot ∧
      IsLeast {n | 1 ≤ n ∧ ∀ w ∈ later, p.Joined g v w → (c.slotOf p w).map Slot.number ≠ some n}
        slot.number := by
  obtain ⟨before, x, rest, hstack', hx, hrest⟩ := exists_split_of_mapM horder hsplit
  have hdistinct : stack.Nodup := (Graph.simplify_perm hstack).nodup_iff.mpr List.nodup_range
  obtain ⟨slot, hslot, hleast⟩ :=
    Graph.leastFree_of_select hdistinct (Graph.select_complete hstack) hstack'
  have hcolor : ∀ {y w}, p.registerAt? y = some w →
      c.slotOf p w = Graph.colorAt (g.select palette stack).colors y :=
    fun hy => slotOf_eq_colorAt hp hg hstack hcolors hy
  refine ⟨slot, (hcolor hx).trans hslot, ⟨Nat.succ_pos _, ?_⟩, ?_⟩
  · rintro w hw ⟨x', y, hx', hy, hedge⟩ hsame
    obtain ⟨z, hz, hregister⟩ : ∃ z ∈ rest, p.registerAt? z = some w := by
      simpa [← hrest] using List.mem_map_of_mem (f := some) hw
    rw [hp.position_eq hx] at hx'
    rw [hp.position_eq hregister] at hy
    cases hx'
    cases hy
    rw [hcolor hregister] at hsame
    obtain ⟨slot', hslot', hnumber⟩ := Option.map_eq_some_iff.mp hsame
    obtain rfl : slot' = slot := by
      cases slot
      cases slot'
      exact congrArg Slot.mk (Nat.succ.inj hnumber)
    exact hleast.free y hz hedge hslot'
  · rintro n ⟨hn, hfree⟩
    refine Nat.le_of_not_lt fun hlt => ?_
    -- slot `n` is held by a neighbor on the rest of the stack
    obtain ⟨i, rfl⟩ := Nat.exists_eq_succ_of_ne_zero (Nat.ne_of_gt hn)
    obtain ⟨y, hy, hedge, hheld⟩ := hleast.least i (Nat.lt_of_succ_lt_succ hlt)
    obtain ⟨w, hw, hregister⟩ : ∃ w ∈ later, p.registerAt? y = some w := by
      have hmem := List.mem_map_of_mem (f := p.registerAt?) hy
      rw [hrest] at hmem
      obtain ⟨w, hw, heq⟩ := List.mem_map.mp hmem
      exact ⟨w, hw, heq.symm⟩
    refine hfree w hw ⟨x, y, hp.position_eq hx, hp.position_eq hregister, hedge⟩ ?_
    rw [hcolor hregister, hheld]
    rfl

omit hp in
/-- The indices in use have no gaps. -/
theorem mem_used_iff {i : Nat} : i ∈ c.used ↔ i < c.registersUsed := by
  have hmem : ∀ {i}, i ∈ c.used ↔ ⟨i⟩ ∈ c.colors := by
    intro i
    rw [Coloring.used, IdSet.mem_ofList, List.mem_map]
    constructor
    · rintro ⟨slot, hslot, rfl⟩
      exact hslot
    · intro hslot
      exact ⟨⟨i⟩, hslot, rfl⟩
  refine IdSet.mem_iff_lt_size fun i hi j hj => ?_
  rw [hmem, hcolors] at hi ⊢
  exact Graph.mem_slots_of_lt hg (Graph.simplify_perm hstack) (Graph.select_complete hstack) hi hj

end Selected

/-- A successful allocation is a first fit. -/
theorem allocate?_firstFit (hp : p.Finished) (hg : g.Undirected)
    (hsize : g.size = p.registerCount) (h : p.allocate? palette g = some (.allocated c)) :
    c.FirstFit p palette g := by
  obtain ⟨stack, hstack, horder, hcolors⟩ := exists_stack_of_allocate? h
  have hperm := Graph.simplify_perm hstack
  have hused : ∀ n, (∃ slot ∈ c.colors, slot.number = n) ↔ 1 ≤ n ∧ n ≤ c.registersUsed := by
    intro n
    have hmem := @mem_used_iff palette g c stack hg hstack hcolors
    constructor
    · rintro ⟨slot, hslot, rfl⟩
      have hin : slot.index ∈ c.used := IdSet.mem_ofList.mpr (List.mem_map_of_mem hslot)
      exact ⟨Nat.succ_pos _, hmem.mp hin⟩
    · rintro ⟨hpos, hle⟩
      have hin : n - 1 ∈ c.used := hmem.mpr (by omega)
      obtain ⟨slot, hslot, hindex⟩ := List.mem_map.mp (IdSet.mem_ofList.mp hin)
      refine ⟨slot, hslot, ?_⟩
      rw [Slot.number, hindex, Nat.sub_add_cancel hpos]
  -- a slot with the number of all slots is in use, unless there is none
  have hbound : ∀ {m}, (∀ slot ∈ c.colors, slot.number ≤ m) → c.registersUsed ≤ m := by
    intro m hm
    rcases Nat.eq_zero_or_pos c.registersUsed with hzero | hpos
    · rw [hzero]
      exact Nat.zero_le m
    · obtain ⟨slot, hslot, hnumber⟩ := (hused c.registersUsed).mpr ⟨hpos, Nat.le_refl _⟩
      exact hnumber ▸ hm slot hslot
  have hle : ∀ slot ∈ c.colors, slot.number ≤ palette.size ∧ slot.number ≤ g.maxDegree + 1 := by
    intro slot hslot
    rw [hcolors] at hslot
    exact Graph.number_le_of_mem_slots hg hperm (Graph.select_complete hstack) hslot
  refine ⟨order_perm (hsize ▸ hperm) horder, ?_, hused, Nat.le_antisymm (hbound ?_) ?_,
    hbound fun slot hslot => (hle slot hslot).1, hbound fun slot hslot => (hle slot hslot).2⟩
  · intro front v later hsplit
    exact isLeast_slotOf hp hg hstack hcolors horder hsplit
  · intro slot hslot
    exact Finset.le_sup (List.mem_toFinset.mpr hslot)
  · refine Finset.sup_le fun slot hslot => ?_
    exact ((hused slot.number).mp ⟨slot, List.mem_toFinset.mp hslot, rfl⟩).2

end Program

/-! ## Sessions -/

namespace Annotated

variable {a : Annotated} {c : Coloring}

/-- The slots that are written down are those of the coloring. -/
theorem slotOf_recorded (hlength : c.colors.length = a.program.registerCount) (v : VarId) :
    (a.recorded (.allocated c)).slotOf v = c.slotOf a.program v := by
  refine Option.bind_congr fun position _ => ?_
  by_cases hlt : position < a.program.registerCount
  · simp [recorded, Status.slots, hlt]
  · simp [recorded, Status.slots, hlt, hlength]

end Annotated

namespace Session

variable {s t : Session}

/-! ### One call -/

theorem buildFlow_keeps (s : Session) :
    s.buildFlow.2.status = s.status ∧
      s.buildFlow.2.stats.registersUsed = s.stats.registersUsed := by
  rw [buildFlow_eq]
  cases s.state.program.flow <;> exact ⟨rfl, rfl⟩

theorem analyze_keeps (s : Session) :
    s.analyze.2.status = s.status ∧ s.analyze.2.stats.registersUsed = s.stats.registersUsed := by
  obtain ⟨hstatus, hused⟩ := s.buildFlow_keeps
  unfold analyze
  generalize s.buildFlow = built at hstatus hused
  obtain ⟨result, t⟩ := built
  cases result with
  | error e => exact ⟨hstatus, hused⟩
  | ok u =>
      -- refused or not, the rest of the analysis touches neither
      rw [← hstatus, ← hused]
      constructor
      · dsimp only
        split <;> rfl
      · dsimp only
        split <;> rfl

theorem color_keeps_of_error {e : SessionError} (h : s.color = (.error e, t)) : t = s := by
  simp only [color] at h
  split at h
  · cases h
    rfl
  · split at h
    · cases h
      rfl
    · cases h

theorem registersUsed_of_color {status : Status} (h : s.color = (.ok status, t)) :
    t.stats.registersUsed = status.registersUsed := by
  simp only [color] at h
  split at h
  · cases h
  · split at h
    · cases h
    · cases h
      rfl

/-- An allocation that stops on the way leaves the status and its number of slots as they were. -/
theorem allocate_keeps_of_error {e : SessionError} (h : s.allocate = (.error e, t)) :
    t.status = s.status ∧ t.stats.registersUsed = s.stats.registersUsed := by
  have hkeeps := s.analyze_keeps
  simp only [allocate] at h
  split at h
  · rename_i heq
    cases h
    rwa [heq] at hkeeps
  · rename_i heq
    rw [color_keeps_of_error h]
    rwa [heq] at hkeeps

theorem registersUsed_of_allocate {status : Status} (h : s.allocate = (.ok status, t)) :
    t.stats.registersUsed = status.registersUsed := by
  simp only [allocate] at h
  split at h
  · cases h
  · exact registersUsed_of_color h

/-! ### Runs -/

/-- The status of a session, if it has one, is the outcome for some graph over the registers of the
program, and its number of slots is in the counters. -/
def Recorded (s : Session) (p : Program) : Prop :=
  ∀ status, s.status = some status → s.stats.registersUsed = status.registersUsed ∧
    ∃ g : Graph, g.Undirected ∧ g.size = p.registerCount ∧
      p.allocate? s.config.palette g = some status

theorem Recorded.of_keeps {p : Program} (h : s.Recorded p) (hstatus : t.status = s.status)
    (hused : t.stats.registersUsed = s.stats.registersUsed) (hconfig : t.config = s.config) :
    t.Recorded p := by
  intro status hsome
  rw [hused, hconfig]
  exact h status (hstatus ▸ hsome)

theorem Recorded.allocate (h : s.Recorded s.state.program) :
    s.allocate.2.Recorded s.state.program := by
  cases hallocate : s.allocate with
  | mk result t =>
      cases result with
      | error e =>
          obtain ⟨hstatus, hused⟩ := allocate_keeps_of_error hallocate
          refine h.of_keeps hstatus hused ?_
          have hconfig := s.config_perform .allocate
          rwa [perform, hallocate] at hconfig
      | ok status =>
          obtain ⟨f, hcompleted⟩ := completed_of_allocate hallocate
          intro status' hstatus'
          obtain rfl : status = status' :=
            Option.some.inj (hcompleted.status_eq.symm.trans hstatus')
          refine ⟨registersUsed_of_allocate hallocate,
            s.state.program.interference f (s.liveOf f) s.config.rule,
            Program.interference_undirected _ _ _ _, Program.size_interference _ _ _ _, ?_⟩
          change s.state.program.allocate? t.config.palette _ = some status
          rw [hcompleted.config_eq]
          exact hcompleted.allocate?_eq

theorem Recorded.apply (h : s.Recorded s.state.program) (pass : Pass) :
    (s.apply pass).Recorded s.state.program := by
  cases pass with
  | buildFlow =>
      rw [apply_buildFlow]
      cases s.state.program.flow <;> exact h
  | color palette graph =>
      simp only [Session.apply]
      cases s.state.allocate? palette graph <;> exact h
  | solve cap => exact h
  | interfere rule => exact h
  | reopen config =>
      intro status hstatus
      cases hstatus
  | call c =>
      cases c with
      | analyze =>
          exact h.of_keeps s.analyze_keeps.1 s.analyze_keeps.2 (s.config_perform .analyze)
      | allocate => exact h.allocate
      | succeed => exact h.allocate

theorem Recorded.applyAll (h : s.Recorded s.state.program) (passes : List Pass) :
    (s.applyAll passes).Recorded s.state.program := by
  induction passes generalizing s with
  | nil => exact h
  | cons pass passes ih =>
      have hprogram := s.program_apply pass
      have hnext := h.apply pass
      rw [← hprogram] at hnext ⊢
      exact ih hnext

/-- Every allocation that succeeds gives to each variable the least slot that none of its neighbors
removed after it has; the slots in use are those from 1 up to their number, which is at most the
size of the palette and at most one more than the highest number of neighbors. Whatever a session
does, its counters have the number of slots of the allocation that it keeps. -/
theorem slots_used_first {p : Program} (hp : p.Finished) :
    (∀ (a b : Annotated) (palette : Palette) (g : Graph) (c : Coloring), a.program = p →
      g.isSymmetric = true → g.size = p.registerCount →
      a.allocate? palette g = some (.allocated c, b) →
      c.FirstFit p palette g ∧ ∀ v, b.slotOf v = c.slotOf p v) ∧
    ∀ (config : Config) (passes : List Pass) (c : Coloring),
      let s := (ofAnnotated (.ofProgram p) config).applyAll passes
      s.status = some (.allocated c) →
      s.stats.registersUsed = c.registersUsed ∧ ∃ g : Graph, g.isSymmetric = true ∧
        g.size = p.registerCount ∧ p.allocate? s.config.palette g = some (.allocated c) ∧
        c.FirstFit p s.config.palette g := by
  constructor
  · rintro a b palette g c rfl hg hsize h
    obtain ⟨status, hstatus, heq⟩ := Option.map_eq_some_iff.mp h
    cases heq
    have hundirected := Graph.isSymmetric_iff.mp hg
    obtain ⟨stack, hstack, _, hcolors⟩ := Program.exists_stack_of_allocate? hstatus
    have hlength : c.colors.length = a.program.registerCount := by
      rw [hcolors, Program.length_slots_select hundirected hstack, hsize]
    exact ⟨Program.allocate?_firstFit hp hundirected hsize hstatus,
      Annotated.slotOf_recorded hlength⟩
  · intro config passes c s hstatus
    have hstart : (ofAnnotated (.ofProgram p) config).Recorded p := by
      intro status hstatus
      cases hstatus
    obtain ⟨hused, g, hg, hsize, hallocate⟩ := hstart.applyAll passes _ hstatus
    exact ⟨hused, g, Graph.isSymmetric_iff.mpr hg, hsize, hallocate,
      Program.allocate?_firstFit hp hg hsize hallocate⟩

/-- The two registers of the loop conflict and take the first two slots, which a later analysis does
not forget. -/
theorem loop_uses_two_slots :
    ∃ p b, Program.parse loopText = .ok p ∧
      let c : Coloring := ⟨[0, 1], [⟨1⟩, ⟨0⟩]⟩
      let s := (ofAnnotated (.ofProgram p) {}).applyAll [.call .allocate, .call .analyze]
      (Annotated.ofProgram p).allocate? .standard (Annotated.crowdGraph 2) =
        some (.allocated c, b) ∧ c.FirstFit p .standard (Annotated.crowdGraph 2) ∧
      s.status = some (.allocated c) ∧ s.stats.registersUsed = 2 := by
  obtain ⟨p, hparse, hsize, hallocate, hstatus⟩ : ∃ p, Program.parse loopText = .ok p ∧
      p.registerCount = 2 ∧ p.allocate? .standard (Annotated.crowdGraph 2) =
        some (.allocated ⟨[0, 1], [⟨1⟩, ⟨0⟩]⟩) ∧
      ((ofAnnotated (.ofProgram p) {}).applyAll [.call .allocate, .call .analyze]).status =
        some (.allocated ⟨[0, 1], [⟨1⟩, ⟨0⟩]⟩) :=
    exists_ok_of_decide (by decide +kernel)
  obtain ⟨hfits, hcounts⟩ := slots_used_first (Program.finished_of_parse hparse)
  have hcolored := Annotated.allocate?_eq_recorded (a := .ofProgram p) hallocate
  refine ⟨p, _, hparse, hcolored, ?_, hstatus, ?_⟩
  · exact (hfits _ _ _ _ _ rfl (by decide) hsize.symm hcolored).1
  · exact (hcounts {} [.call .allocate, .call .analyze] _ hstatus).1

end Session

end RegAlloc
