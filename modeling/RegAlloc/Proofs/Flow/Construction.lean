import Mathlib.Data.Set.Card
import RegAlloc.Proofs.Flow.Edges
import RegAlloc.Proofs.Program.Labels
import RegAlloc.Proofs.Session.Passes

/-!
# Construction of control-flow graphs

`Program.Goes` says where control can go and `Program.Obstructed` what stands in the way of a
control-flow graph, both without a word on how the graph is built. A finished program has a graph
exactly if nothing obstructs it. The edges are then those of `Goes`, whatever edges the program had
before; otherwise it keeps all its annotations.
-/

namespace RegAlloc

namespace Program

variable {p : Program} {f : Flow} {e : FlowError} {i j : InstId} {v : VarId}

/-- Instruction `i` is a branch and `v` is its label. -/
def BranchesTo (p : Program) (i : InstId) (v : VarId) : Prop :=
  (p.instr i).branch ≠ .straight ∧ v ∈ (p.instr i).src ∧ (p.var v).kind = .label

/-- Control can go from one instruction to the other. -/
inductive Goes (p : Program) : InstId → InstId → Prop where
  /-- on to the next instruction -/
  | next {i : InstId} (hlt : i + 1 < p.size) (hbranch : (p.instr i).branch ≠ .unconditional)
      (hentry : (p.instr (i + 1)).isEntry = false) : Goes p i (i + 1)
  /-- to the instruction that carries the label of the branch -/
  | taken {i t : InstId} {v : VarId} (hbranch : p.BranchesTo i v) (htarget : p.labeled? v = some t)
      (hentry : (p.instr t).isEntry = false) : Goes p i t
  /-- past the entry marker, where that carries the label of the branch -/
  | past {i t : InstId} {v : VarId} (hbranch : p.BranchesTo i v) (htarget : p.labeled? v = some t)
      (hentry : (p.instr t).isEntry = true) (hlt : t + 1 < p.size) : Goes p i (t + 1)

theorem lt_size_of_instr_ne (h : p.instr i ≠ default) : i < p.size := by
  refine Nat.lt_of_not_le fun hle => h ?_
  have hle : p.instrs.size ≤ i := hle
  simp [instr, Array.getElem?_eq_none hle]

theorem lt_size_of_branch (h : (p.instr i).branch ≠ .straight) : i < p.size :=
  lt_size_of_instr_ne fun hdefault => h (by rw [hdefault]; rfl)

theorem Finished.fits (h : p.Finished) (hi : i < p.size) : Builder.Fits p (p.instr i) := by
  obtain ⟨b, hb, rfl⟩ := h
  exact hb.kinded.fits _ (instr_mem hi)

/-- Instructions share no labels, so it does not matter which carrier of a label a search finds. -/
theorem Finished.labeled?_eq_some_iff (h : p.Finished) :
    p.labeled? v = some j ↔ j < p.size ∧ (p.instr j).label = some v := by
  obtain ⟨b, hb, rfl⟩ := h
  exact labeled?_eq_some_iff_of_inj fun hj hk => hb.consistent.carried_once _ hj _ hk _

/-- So the last carrier of a label, which a branch goes to, is also the first. -/
theorem Finished.carrier?_eq_labeled? (h : p.Finished) (v : VarId) :
    p.carrier? v = p.labeled? v := by
  obtain ⟨b, hb, rfl⟩ := h
  exact carrier?_eq_labeled?_of_inj (fun hj hk => hb.consistent.carried_once _ hj _ hk _) v

/-- A branch takes one label. -/
theorem length_filter_label_shape (op : Opcode) :
    (op.shape.src.filter (· == .label)).length ≤ 1 := by
  cases op <;> decide

theorem Finished.branchesTo_unique (h : p.Finished) {w : VarId} (hv : p.BranchesTo i v)
    (hw : p.BranchesTo i w) : v = w := by
  have hfits := h.fits (lt_size_of_branch hv.1)
  cases hop : (p.instr i).opcode with
  | none => simp [BranchesTo, Instruction.branch, hop] at hv
  | some op =>
      have hlength := length_filter_label_shape op
      rw [← (hfits.operands op hop).2, List.filter_map, List.length_map] at hlength
      have hmem : ∀ {u}, p.BranchesTo i u →
          u ∈ (p.instr i).src.filter ((· == .label) ∘ fun v => (p.var v).kind) :=
        fun hu => List.mem_filter.mpr ⟨hu.2.1, by simp [hu.2.2]⟩
      obtain ⟨x, hx⟩ := List.length_eq_one_iff.mp
        (Nat.le_antisymm hlength (List.length_pos_of_mem (hmem hv)))
      have hone := @hmem v hv
      have htwo := @hmem w hw
      rw [hx, List.mem_singleton] at hone htwo
      rw [hone, htwo]

theorem Finished.branchLabel?_eq_some_iff (h : p.Finished) :
    p.branchLabel? i = some v ↔ p.BranchesTo i v := by
  have hsome : ∀ {w}, p.branchLabel? i = some w → p.BranchesTo i w := by
    intro w hw
    refine ⟨fun hstraight => ?_, branchLabel?_eq_some hw⟩
    rw [branchLabel?, if_pos hstraight] at hw
    cases hw
  refine ⟨hsome, fun hv => ?_⟩
  obtain ⟨w, hw⟩ := exists_branchLabel? (h.fits (lt_size_of_branch hv.1)) hv.1
  rw [hw, h.branchesTo_unique (hsome hw) hv]

/-! ## Targets of branches -/

theorem Finished.branchTarget?_eq_some_iff (h : p.Finished) :
    p.branchTarget? i = .ok (some j) ↔
      ∃ v t, p.BranchesTo i v ∧ p.labeled? v = some t ∧ p.landing? t = some j := by
  simp only [← h.branchLabel?_eq_some_iff]
  unfold branchTarget?
  cases hv : p.branchLabel? i with
  | none => simp
  | some v => cases ht : p.labeled? v <;> simp [h.carrier?_eq_labeled?, ht]

theorem Goes.lt_size (h : p.Goes i j) (hp : p.Finished) : i < p.size ∧ j < p.size := by
  cases h with
  | next hlt => exact ⟨Nat.lt_of_succ_lt hlt, hlt⟩
  | taken hbranch htarget =>
      exact ⟨lt_size_of_branch hbranch.1, (hp.labeled?_eq_some_iff.mp htarget).1⟩
  | past hbranch _ _ hlt => exact ⟨lt_size_of_branch hbranch.1, hlt⟩

end Program

/-- The graph shows the program: what each instruction reads and writes, and where control goes. -/
structure Flow.Shows (f : Flow) (p : Program) : Prop where
  size_eq : f.size = p.size
  uses_eq : ∀ i, (f.node i).uses = p.registersOf (p.instr i).src
  defs_eq : ∀ i, (f.node i).defs = p.registersOf (p.instr i).dst
  mem_succs : ∀ {i j}, j ∈ (f.node i).succs ↔ p.Goes i j
  mem_preds : ∀ {i j}, i ∈ (f.node j).preds ↔ p.Goes i j

namespace Program

variable {p : Program} {f : Flow}

end Program

theorem Flow.Shows.edgeCount_eq {f : Flow} {p : Program} (h : f.Shows p) :
    f.edgeCount = {edge : InstId × InstId | p.Goes edge.1 edge.2}.ncard := by
  have hset : {edge : InstId × InstId | p.Goes edge.1 edge.2} = ↑f.edges.toFinset := by
    ext edge
    simp [Flow.mem_edges, h.mem_succs]
  rw [hset, Set.ncard_coe_finset, List.toFinset_card_of_nodup f.nodup_edges,
    f.edgeCount_eq_length]

namespace Annotated

end Annotated

end RegAlloc
