import RegAlloc.Proofs.Flow.Nodes
import RegAlloc.Proofs.Program.Linked

/-!
# Edges of control-flow graphs

An instruction goes on to the next one if control falls through, and to its branch target if it has
one. The graph has no other edges.
-/

namespace RegAlloc

namespace Flow

variable {f : Flow} {i j : InstId}

theorem mem_succs_link {edge : InstId × InstId} (hi : i < f.size) :
    j ∈ ((f.link edge).node i).succs ↔ (i, j) = edge ∨ j ∈ (f.node i).succs := by
  obtain ⟨source, target⟩ := edge
  have hi' : i < f.nodes.size := hi
  have hpreds : ((f.link (source, target)).node i).succs = ((f.nodes.modify source fun n =>
      { n with succs := n.succs.insert target }).getD i {}).succs :=
    getD_modify_of_keep FlowNode.succs (fun n => { n with preds := n.preds.insert source })
      (fun _ => rfl) _ _ _
  rw [hpreds, node]
  by_cases hsource : source = i
  · simp [hsource, hi', Array.getElem_modify]
  · simp [hsource, Ne.symm hsource, Array.getElem?_modify]

theorem mem_succs_foldl_link {edges : List (InstId × InstId)} (hi : i < f.size) :
    j ∈ ((edges.foldl link f).node i).succs ↔ (i, j) ∈ edges ∨ j ∈ (f.node i).succs := by
  induction edges generalizing f with
  | nil => simp
  | cons edge edges ih =>
      rw [List.foldl_cons, ih (by rwa [size_link]), mem_succs_link hi, List.mem_cons]
      tauto

end Flow

namespace Program

variable {p : Program} {f : Flow} {i j : InstId}

theorem mem_edgesFrom {k : InstId} {target : Option InstId} :
    (i, j) ∈ p.edgesFrom k target ↔
      i = k ∧ (p.fallsThrough i = true ∧ j = i + 1 ∨ target = some j) := by
  unfold edgesFrom
  cases hfalls : p.fallsThrough k <;> cases target <;> grind

/-- The graph has the edges that leave each instruction. -/
theorem flow_eq_edges (h : p.flow = .ok f) :
    ∃ edges : List (InstId × InstId),
      f = edges.foldl Flow.link ⟨p.instrs.map p.flowNode⟩ ∧
      ∀ i j, (i, j) ∈ edges ↔ i < p.size ∧
        (p.fallsThrough i = true ∧ j = i + 1 ∨ p.branchTarget? i = .ok (some j)) := by
  obtain ⟨_, _, h⟩ := Parser.bind_eq_ok.mp h
  obtain ⟨targets, htargets, h⟩ := Parser.bind_eq_ok.mp h
  cases h
  obtain ⟨hlength, hpairs⟩ := List.forall₂_iff_zip.mp (mapM_eq_ok_iff.mp htargets)
  refine ⟨_, rfl, fun i j => ?_⟩
  rw [List.mem_flatMap]
  constructor
  · rintro ⟨⟨k, target⟩, hmem, hedge⟩
    obtain ⟨rfl, hleaves⟩ := mem_edgesFrom.mp hedge
    refine ⟨List.mem_range.mp (List.of_mem_zip hmem).1, hleaves.imp_right fun htarget => ?_⟩
    rw [← htarget]
    exact hpairs hmem
  · rintro ⟨hi, hedge⟩
    have hlt : i < targets.length := by rwa [← hlength, List.length_range]
    have hmem : (i, targets[i]) ∈ (List.range p.size).zip targets :=
      List.mem_iff_getElem.mpr ⟨i, by simpa using Nat.lt_min.mpr ⟨hi, hlt⟩, by simp⟩
    refine ⟨_, hmem, mem_edgesFrom.mpr ⟨rfl, hedge.imp_right fun htarget => ?_⟩⟩
    exact Except.ok.inj ((hpairs hmem).symm.trans htarget)

theorem mem_succs_flow (h : p.flow = .ok f) (hi : i < p.size) :
    j ∈ (f.node i).succs ↔
      p.fallsThrough i = true ∧ j = i + 1 ∨ p.branchTarget? i = .ok (some j) := by
  have hsize := size_flow h
  obtain ⟨edges, rfl, hedges⟩ := flow_eq_edges h
  rw [Flow.size_foldl_link] at hsize
  have hblank : j ∉ ((Flow.mk (p.instrs.map p.flowNode)).node i).succs := by
    rw [node_flowNode]
    exact IdSet.not_mem_empty j
  rw [Flow.mem_succs_foldl_link (by rwa [hsize]), or_iff_left hblank, hedges, and_iff_right hi]

theorem Linked.landing?_eq (h : p.Linked) (i : InstId) :
    p.landing? i = if i = 0 then (if 1 < p.size then some 1 else none) else some i := by
  unfold landing?
  by_cases hzero : i = 0
  · simp [hzero, h.entry_first]
  · simp [hzero, h.isEntry_eq_false hzero]

/-- A branch goes to the instruction that carries its label, or past the marker that carries it. -/
theorem Linked.branchTarget?_eq_some_iff (h : p.Linked) (hj : j < p.size) (hne : j ≠ 0) :
    p.branchTarget? i = .ok (some j) ↔ ∃ v, p.branchLabel? i = some v ∧
      ((p.instr j).label = some v ∨ j = 1 ∧ (p.instr 0).label = some v) := by
  unfold branchTarget?
  cases hv : p.branchLabel? i with
  | none => simp
  | some v =>
      have hlabeled : ∀ {k}, p.labeled? v = some k ↔ k < p.size ∧ (p.instr k).label = some v :=
        h.labeled?_eq_some_iff
      have hcarries : ∀ {k}, k < p.size →
          ((p.instr k).label = some v ↔ p.labeled? v = some k) := fun hk => by
        rw [hlabeled, and_iff_right hk]
      simp only [Option.some.injEq, exists_eq_left', hcarries hj, hcarries h.size_pos]
      rw [h.carrier?_eq_labeled?]
      cases ht : p.labeled? v with
      | none => simp
      | some t =>
          simp only [Except.ok.injEq, Option.some.injEq, h.landing?_eq]
          grind

end Program

end RegAlloc
