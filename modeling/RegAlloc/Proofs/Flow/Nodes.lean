import RegAlloc.Flow

/-!
# Nodes of control-flow graphs

Linking adds edges and nothing else, so the nodes of a program's control-flow graph are its
instructions, each with the registers among its operands. The edges of a graph can be listed, and
those that lead backward can be told apart.
-/

namespace RegAlloc

namespace Flow

theorem size_link (f : Flow) (edge : InstId × InstId) : (f.link edge).size = f.size := by
  simp [link, size]

/-- A part of a node that a change keeps is the same in every node afterwards. -/
theorem getD_modify_of_keep {β : Type} (part : FlowNode → β) (change : FlowNode → FlowNode)
    (hkeep : ∀ x, part (change x) = part x) (nodes : Array FlowNode) (i n : Nat) :
    part ((nodes.modify i change).getD n {}) = part (nodes.getD n {}) := by
  simp only [Array.getD_eq_getD_getElem?, Array.getElem?_modify]
  split
  · cases nodes[n]? with
    | none => rfl
    | some x => exact hkeep x
  · rfl

theorem node_link_of_keep {β : Type} (part : FlowNode → β)
    (hsuccs : ∀ x s, part { x with succs := s } = part x)
    (hpreds : ∀ x s, part { x with preds := s } = part x) (f : Flow) (edge : InstId × InstId)
    (n : InstId) : part ((f.link edge).node n) = part (f.node n) := by
  unfold node link
  rw [getD_modify_of_keep part _ (fun x => hpreds x _),
    getD_modify_of_keep part _ (fun x => hsuccs x _)]

theorem foldl_link_of_keep {β : Type} (part : FlowNode → β)
    (hsuccs : ∀ x s, part { x with succs := s } = part x)
    (hpreds : ∀ x s, part { x with preds := s } = part x) (f : Flow)
    (edges : List (InstId × InstId)) (n : InstId) :
    part ((edges.foldl link f).node n) = part (f.node n) := by
  induction edges generalizing f with
  | nil => rfl
  | cons edge edges ih =>
      rw [List.foldl_cons, ih, node_link_of_keep part hsuccs hpreds]

theorem size_foldl_link (f : Flow) (edges : List (InstId × InstId)) :
    (edges.foldl link f).size = f.size := by
  induction edges generalizing f with
  | nil => rfl
  | cons edge edges ih => rw [List.foldl_cons, ih, size_link]

@[simp] theorem node_blank (n i : Nat) : (blank n).node i = {} := by
  simp only [node, blank, Array.getD_eq_getD_getElem?, Array.getElem?_replicate]
  split <;> rfl

theorem node_of_size_le {f : Flow} {i : InstId} (h : f.size ≤ i) : f.node i = {} := by
  rw [node, Array.getD_eq_getD_getElem?, Array.getElem?_eq_none h]
  rfl

theorem lt_size_of_mem_succs {f : Flow} {i j : InstId} (h : j ∈ (f.node i).succs) : i < f.size := by
  refine Nat.lt_of_not_le fun hle => ?_
  rw [node_of_size_le hle] at h
  exact IdSet.not_mem_empty j h

/-! ## Lists of edges -/

/-- The edges of the graph, each once. -/
def edges (f : Flow) : List (InstId × InstId) :=
  (List.range f.size).flatMap fun i => (f.node i).succs.toList.map fun j => (i, j)

/-- The edges that do not lead forward in the program. -/
def backEdges (f : Flow) : List (InstId × InstId) := f.edges.filter fun e => e.2 ≤ e.1

theorem mem_edges {f : Flow} {e : InstId × InstId} : e ∈ f.edges ↔ e.2 ∈ (f.node e.1).succs := by
  obtain ⟨i, j⟩ := e
  simp only [edges, List.mem_flatMap, List.mem_range, List.mem_map, IdSet.mem_toList]
  constructor
  · rintro ⟨k, _, s, hs, heq⟩
    cases heq
    exact hs
  · intro hj
    exact ⟨i, lt_size_of_mem_succs hj, j, hj, rfl⟩

theorem nodup_edges (f : Flow) : f.edges.Nodup := by
  refine List.pairwise_flatMap.mpr ⟨?_, ?_⟩
  · intro i _
    refine List.pairwise_map.mpr ((f.node i).succs.ascending.imp ?_)
    intro j k hlt heq
    cases heq
    exact Nat.lt_irrefl j hlt
  · refine List.pairwise_lt_range.imp ?_
    intro i k hlt x hx y hy
    obtain ⟨j, _, rfl⟩ := List.mem_map.mp hx
    obtain ⟨l, _, rfl⟩ := List.mem_map.mp hy
    intro heq
    cases heq
    exact Nat.lt_irrefl i hlt

theorem edgeCount_eq_length (f : Flow) : f.edgeCount = f.edges.length := by
  have hnodes : f.nodes.toList = (List.range f.size).map f.node := by
    refine List.ext_getElem (by simp [size]) fun i hi _ => ?_
    have hi : i < f.nodes.size := by simpa using hi
    simp [node, hi]
  have hsum : ∀ (nodes : List FlowNode) (count : Nat),
      nodes.foldl (fun count n => count + n.succs.size) count =
        count + (nodes.map fun n => n.succs.size).sum := by
    intro nodes
    induction nodes with
    | nil => simp
    | cons n nodes ih =>
        intro count
        rw [List.foldl_cons, ih, List.map_cons, List.sum_cons, Nat.add_assoc]
  rw [edgeCount, ← Array.foldl_toList, hsum, hnodes, edges, List.length_flatMap, Nat.zero_add]
  simp [IdSet.size, Function.comp_def]

theorem mem_backEdges {f : Flow} {e : InstId × InstId} :
    e ∈ f.backEdges ↔ e.2 ∈ (f.node e.1).succs ∧ e.2 ≤ e.1 := by
  simp [backEdges, mem_edges]

end Flow

namespace Program

/-! ### Carriers of labels -/

theorem mem_carriers {p : Program} {v : VarId} {j : InstId} :
    (v, j) ∈ p.carriers ↔ j < p.size ∧ (p.instr j).label = some v := by
  simp only [carriers, List.mem_reverse, List.mem_filterMap, List.mem_range, Option.map_eq_some_iff,
    Prod.mk.injEq]
  constructor
  · rintro ⟨i, hi, w, hlabel, rfl, rfl⟩
    exact ⟨hi, hlabel⟩
  · rintro ⟨hj, hlabel⟩
    exact ⟨j, hj, v, hlabel, rfl, rfl⟩

theorem of_carrier? {p : Program} {v : VarId} {j : InstId} (h : p.carrier? v = some j) :
    j < p.size ∧ (p.instr j).label = some v := by
  obtain ⟨front, back, hsplit, _⟩ := List.lookup_eq_some_iff.mp h
  exact mem_carriers.mp (by simp [hsplit])

theorem carrier?_eq_none_iff {p : Program} {v : VarId} :
    p.carrier? v = none ↔ ∀ j < p.size, (p.instr j).label ≠ some v := by
  rw [carrier?, List.lookup_eq_none_iff]
  constructor
  · intro h j hj hlabel
    simpa using h _ (mem_carriers.mpr ⟨hj, hlabel⟩)
  · rintro h ⟨w, j⟩ hmem
    obtain ⟨hj, hlabel⟩ := mem_carriers.mp hmem
    rw [bne_iff_ne]
    rintro rfl
    exact h j hj hlabel

/-! ### Instructions -/

theorem flow_eq_ok {p : Program} {f : Flow} (h : p.flow = .ok f) :
    ∃ edges : List (InstId × InstId), f = edges.foldl Flow.link ⟨p.instrs.map p.flowNode⟩ := by
  unfold flow at h
  cases hentry : p.checkEntry with
  | error e =>
      rw [hentry] at h
      cases h
  | ok _ =>
      cases htargets : p.branchTargets with
      | error e =>
          rw [hentry, htargets] at h
          cases h
      | ok targets =>
          rw [hentry, htargets] at h
          cases h
          exact ⟨_, rfl⟩

theorem size_flow {p : Program} {f : Flow} (h : p.flow = .ok f) : f.size = p.size := by
  obtain ⟨edges, rfl⟩ := flow_eq_ok h
  rw [Flow.size_foldl_link]
  exact Array.size_map

theorem node_flowNode (p : Program) (n : InstId) :
    (Flow.mk (p.instrs.map p.flowNode)).node n = p.flowNode (p.instr n) := by
  simp only [Flow.node, instr, Array.getD_eq_getD_getElem?, Array.getElem?_map]
  cases p.instrs[n]? <;> rfl

theorem uses_flow {p : Program} {f : Flow} (h : p.flow = .ok f) (n : InstId) :
    (f.node n).uses = p.registersOf (p.instr n).src := by
  obtain ⟨edges, rfl⟩ := flow_eq_ok h
  rw [Flow.foldl_link_of_keep FlowNode.uses (fun _ _ => rfl) (fun _ _ => rfl), node_flowNode]
  rfl

theorem defs_flow {p : Program} {f : Flow} (h : p.flow = .ok f) (n : InstId) :
    (f.node n).defs = p.registersOf (p.instr n).dst := by
  obtain ⟨edges, rfl⟩ := flow_eq_ok h
  rw [Flow.foldl_link_of_keep FlowNode.defs (fun _ _ => rfl) (fun _ _ => rfl), node_flowNode]
  rfl

theorem mem_registersOf {p : Program} {operands : List VarId} {v : VarId} :
    v ∈ p.registersOf operands ↔ v ∈ operands ∧ (p.var v).isRegister = true := by
  simp [registersOf]

end Program

end RegAlloc
