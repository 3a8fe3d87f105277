import Mathlib.Algebra.GroupWithZero.Nat
import Mathlib.Data.List.Nodup
import Mathlib.Data.Prod.Basic
import RegAlloc.Proofs.Graph.Edges

/-!
# Graphs built edge by edge

Whatever edges are added to an empty graph, in whatever order and however often, the matrix shows
the pairs of different nodes that were added and nothing else. The edges are counted over the arcs:
an undirected edge is one arc from each of its ends, and the matrix has a cell for each arc.
-/

namespace RegAlloc.Graph

variable {g : Graph} {n a b : Nat} {pairs before : List (Nat × Nat)}

/-! ## Arcs -/

/-- The edges in both directions, ascending. -/
def arcs (g : Graph) : List (Nat × Nat) :=
  (List.range g.size).flatMap fun a => (g.neighbors a).map (a, ·)

theorem mem_arcs : (a, b) ∈ g.arcs ↔ g.Edge a b := by
  simp only [arcs, List.mem_flatMap, List.mem_range, List.mem_map, mem_neighbors, Prod.mk.injEq]
  constructor
  · rintro ⟨x, _, y, hedge, rfl, rfl⟩
    exact hedge
  · intro hedge
    exact ⟨a, hedge.1, b, hedge, rfl, rfl⟩

theorem pairwise_neighbors (g : Graph) (a : Nat) : (g.neighbors a).Pairwise (· < ·) :=
  List.pairwise_lt_range.filter _

theorem pairwise_arcs (g : Graph) : g.arcs.Pairwise (Prod.Lex (· < ·) (· < ·)) := by
  rw [arcs, List.pairwise_flatMap]
  constructor
  · intro a _
    rw [List.pairwise_map]
    exact (g.pairwise_neighbors a).imp fun hlt => Prod.Lex.right a hlt
  · apply List.pairwise_lt_range.imp
    intro a a' hlt x hx y hy
    obtain ⟨b, _, rfl⟩ := List.mem_map.mp hx
    obtain ⟨b', _, rfl⟩ := List.mem_map.mp hy
    exact Prod.Lex.left b b' hlt

theorem edges_eq_filter_arcs (g : Graph) : g.edges = g.arcs.filter fun e => e.1 < e.2 := by
  rw [edges, arcs, List.filter_flatMap]
  simp only [List.filter_map, Function.comp_def]

theorem pairwise_edges (g : Graph) : g.edges.Pairwise (Prod.Lex (· < ·) (· < ·)) := by
  rw [edges_eq_filter_arcs]
  exact g.pairwise_arcs.filter _

theorem nodup_arcs (g : Graph) : g.arcs.Nodup := by
  apply g.pairwise_arcs.imp
  rintro e _ hlt rfl
  rw [Prod.lex_def] at hlt
  omega

theorem length_arcs (g : Graph) : g.arcs.length = ((List.range g.size).map g.degree).sum := by
  simp only [arcs, List.length_flatMap, List.length_map]
  rfl

/-- Every edge is an arc from its lower end and one from its upper end. -/
theorem Undirected.length_arcs (hg : g.Undirected) : g.arcs.length = 2 * g.edges.length := by
  have hedges : g.edges.Nodup := by
    rw [edges_eq_filter_arcs]
    exact g.nodup_arcs.filter _
  have hback : (g.arcs.filter fun e => !decide (e.1 < e.2)).Perm (g.edges.map Prod.swap) := by
    rw [List.perm_ext_iff_of_nodup (g.nodup_arcs.filter _) (hedges.map Prod.swap_injective)]
    rintro ⟨a, b⟩
    rw [List.mem_filter, mem_arcs, List.mem_map]
    constructor
    · rintro ⟨hedge, hle⟩
      have hne : a ≠ b := fun heq => hg.irrefl a (heq ▸ hedge)
      have hba : b ≤ a := by simpa using hle
      exact ⟨(b, a), mem_edges.mpr ⟨hg.symm hedge, by omega⟩, rfl⟩
    · rintro ⟨⟨x, y⟩, hmem, heq⟩
      obtain ⟨rfl, rfl⟩ := Prod.mk.inj heq
      obtain ⟨hedge, hlt⟩ := mem_edges.mp hmem
      exact ⟨hg.symm hedge, by simpa using Nat.le_of_lt hlt⟩
  have hsplit := List.length_eq_length_filter_add (l := g.arcs) fun e => decide (e.1 < e.2)
  rw [hback.length_eq, List.length_map, ← edges_eq_filter_arcs] at hsplit
  omega

/-! ## Counting cells -/

/-- The matrix is the sequence of its rows. -/
theorem toList_cells (g : Graph) : g.cells.toList =
    (List.range g.size).flatMap fun a => (List.range g.size).map (g.adjacent a) := by
  have hrows : ∀ m, (List.range (m * g.size)).map (fun k => g.cells.getD k false) =
      (List.range m).flatMap fun a => (List.range g.size).map (g.adjacent a) := by
    intro m
    induction m with
    | zero => simp
    | succ m ih =>
        rw [Nat.succ_mul, List.range_add, List.map_append, ih, List.range_succ,
          List.flatMap_append]
        simp [adjacent, cell]
  rw [← hrows g.size, ← g.size_cells]
  apply List.ext_getElem
  · simp
  · intro k hk _
    have hcell : k < g.cells.size := by simpa using hk
    simp [hcell]

theorem count_cells (g : Graph) : g.cells.toList.count true = g.arcs.length := by
  rw [toList_cells, List.count_flatMap, length_arcs]
  congr 1
  apply List.map_congr_left
  intro a _
  rw [degree, neighbors, ← List.countP_eq_length_filter]
  simp [List.count, List.countP_map, Function.comp_def]

/-- Half of the cells that are set is the number of edges, since each edge sets two. -/
theorem Undirected.edgeCount_eq (hg : g.Undirected) : g.edgeCount = g.edges.length := by
  rw [edgeCount, count_cells, hg.length_arcs, Nat.mul_div_cancel_left _ Nat.two_pos]

/-! ## Sequences of calls -/

/-- Adds edges one after the other. Each answer says whether its edge was new. -/
def addEdges? (g : Graph) : List (Nat × Nat) → Option (Graph × List Bool)
  | [] => some (g, [])
  | (a, b) :: pairs => do
    let (g, isNew) ← g.addEdge? a b
    let (g, answers) ← g.addEdges? pairs
    return (g, isNew :: answers)

/-- One of the pairs has the ends `a` and `b`, in either order. -/
def Paired (pairs : List (Nat × Nat)) (a b : Nat) : Prop := (a, b) ∈ pairs ∨ (b, a) ∈ pairs

instance (pairs : List (Nat × Nat)) (a b : Nat) : Decidable (Paired pairs a b) :=
  inferInstanceAs (Decidable (_ ∨ _))

/-- A graph with `n` nodes whose edges are the pairs of different nodes. -/
structure Represents (g : Graph) (n : Nat) (pairs : List (Nat × Nat)) : Prop where
  size_eq : g.size = n
  edge_iff : ∀ {a b : Nat}, g.Edge a b ↔ a < n ∧ b < n ∧ a ≠ b ∧ Paired pairs a b

theorem represents_empty (n : Nat) : (empty n).Represents n [] where
  size_eq := rfl
  edge_iff := by simp [not_edge_empty, Paired]

theorem Represents.undirected (h : g.Represents n pairs) : g.Undirected where
  symm := by
    intro a b hedge
    rw [h.edge_iff] at hedge ⊢
    exact ⟨hedge.2.1, hedge.1, hedge.2.2.1.symm, hedge.2.2.2.symm⟩
  irrefl := by
    intro a hedge
    exact (h.edge_iff.mp hedge).2.2.1 rfl

theorem Represents.adjacent?_eq (h : g.Represents n pairs) (ha : a < n) (hb : b < n) :
    g.adjacent? a b = some (decide (a ≠ b ∧ Paired pairs a b)) := by
  have hedge := h.edge_iff (a := a) (b := b)
  simp only [Edge, h.size_eq, ha, hb, true_and] at hedge
  rw [adjacent?_eq_some (h.size_eq ▸ ha) (h.size_eq ▸ hb), Option.some.injEq, Bool.eq_iff_iff,
    decide_eq_true_iff, hedge]

theorem Represents.edge_iff_adjacent? (h : g.Represents n pairs) :
    g.Edge a b ↔ a < n ∧ b < n ∧ g.adjacent? a b = some true := by
  rw [h.edge_iff]
  apply and_congr_right
  intro ha
  apply and_congr_right
  intro hb
  rw [h.adjacent?_eq ha hb, Option.some.injEq, decide_eq_true_iff]

theorem Represents.addEdge (h : g.Represents n pairs) (a b : Nat) :
    (g.addEdge a b).Represents n (pairs ++ [(a, b)]) := by
  have hadds := g.adds_addEdge a b
  refine ⟨hadds.size_eq.trans h.size_eq, ?_⟩
  intro x y
  rw [hadds.edge_iff, h.edge_iff, h.size_eq]
  simp only [Paired, List.mem_append, List.mem_singleton, Prod.mk.injEq]
  tauto

/-- An edge is new if it joins different nodes that are not paired yet. -/
theorem Represents.addEdge? (h : g.Represents n pairs) (ha : a < n) (hb : b < n) :
    g.addEdge? a b = some (g.addEdge a b, decide (a ≠ b ∧ ¬ Paired pairs a b)) := by
  have ha' : a < g.size := h.size_eq ▸ ha
  have hb' : b < g.size := h.size_eq ▸ hb
  have hadjacent : g.adjacent a b = decide (a ≠ b ∧ Paired pairs a b) :=
    Option.some.inj ((adjacent?_eq_some ha' hb').symm.trans (h.adjacent?_eq ha hb))
  rw [addEdge?_eq_some ha' hb', hadjacent]
  by_cases heq : a = b <;> simp [heq]

/-- The answers to calls that come after those for `before`. -/
theorem Represents.addEdges? (h : g.Represents n before)
    (hpairs : ∀ e ∈ pairs, e.1 < n ∧ e.2 < n) :
    ∃ g' answers, g.addEdges? pairs = some (g', answers) ∧ g'.Represents n (before ++ pairs) ∧
      answers.length = pairs.length ∧ ∀ i a b, pairs[i]? = some (a, b) →
        answers[i]? = some (decide (a ≠ b ∧ ¬ Paired (before ++ pairs.take i) a b)) := by
  induction pairs generalizing g before with
  | nil => exact ⟨g, [], rfl, by simpa using h, rfl, by simp⟩
  | cons e pairs ih =>
      obtain ⟨a, b⟩ := e
      rw [List.forall_mem_cons] at hpairs
      have hcall := h.addEdge? hpairs.1.1 hpairs.1.2
      obtain ⟨g', answers, hrun, hrepresents, hlength, hanswers⟩ := ih (h.addEdge a b) hpairs.2
      refine ⟨g', decide (a ≠ b ∧ ¬ Paired before a b) :: answers, ?_, ?_, ?_, ?_⟩
      · simp only [Graph.addEdges?, hcall, hrun, Option.bind_eq_bind, Option.bind_some]
        rfl
      · simpa using hrepresents
      · simpa using hlength
      · intro i x y hi
        cases i with
        | zero =>
            obtain ⟨rfl, rfl⟩ : a = x ∧ b = y := by simpa using hi
            rw [List.take_zero, List.append_nil, List.getElem?_cons_zero]
        | succ i =>
            have hanswer := hanswers i x y hi
            rwa [List.append_assoc] at hanswer

/-! ## The matrix and the edges that were added -/

/-- Calls between nodes of an empty graph leave the undirected graph of the pairs that were added,
each says whether its pair is new, and all ways to read the matrix agree on it. -/
theorem matrix_represents_pairs {n : Nat} {pairs : List (Nat × Nat)}
    (hpairs : ∀ e ∈ pairs, e.1 < n ∧ e.2 < n) :
    ∃ g answers, (empty n).addEdges? pairs = some (g, answers) ∧ g.size = n ∧
      (∀ a < n, ∀ b < n, g.adjacent? a b = some (decide (a ≠ b ∧ Paired pairs a b))) ∧
      g.isSymmetric = true ∧
      (answers.length = pairs.length ∧ ∀ i a b, pairs[i]? = some (a, b) →
        answers[i]? = some (decide (a ≠ b ∧ ¬ Paired (pairs.take i) a b))) ∧
      (∀ a < n, ∃ bs, g.neighbors? a = some bs ∧ bs.Pairwise (· < ·) ∧
        ∀ b, b ∈ bs ↔ b < n ∧ g.adjacent? a b = some true) ∧
      (g.edges.Pairwise (Prod.Lex (· < ·) (· < ·)) ∧
        ∀ a b, (a, b) ∈ g.edges ↔ a < b ∧ b < n ∧ g.adjacent? a b = some true) ∧
      g.edgeCount = g.edges.length ∧
      2 * g.edgeCount = ((List.range n).map g.degree).sum := by
  obtain ⟨g, answers, hrun, h, hanswers⟩ := (represents_empty n).addEdges? hpairs
  have hcount := h.undirected.edgeCount_eq
  refine ⟨g, answers, hrun, h.size_eq, fun a ha b hb => h.adjacent?_eq ha hb,
    isSymmetric_iff.mpr h.undirected, hanswers, ?_, ⟨g.pairwise_edges, ?_⟩, hcount, ?_⟩
  · intro a ha
    refine ⟨_, neighbors?_eq_some (h.size_eq ▸ ha), g.pairwise_neighbors a, fun b => ?_⟩
    rw [mem_neighbors, h.edge_iff_adjacent?]
    exact and_iff_right ha
  · intro a b
    rw [mem_edges, h.edge_iff_adjacent?]
    constructor
    · rintro ⟨⟨_, hb, hab⟩, hlt⟩
      exact ⟨hlt, hb, hab⟩
    · rintro ⟨hlt, hb, hab⟩
      exact ⟨⟨Nat.lt_trans hlt hb, hb, hab⟩, hlt⟩
  · rw [hcount, ← h.undirected.length_arcs, Graph.length_arcs, h.size_eq]

/-- One pair is added again the other way round, and one node is paired with itself. -/
theorem matrix_of_repeated_pairs :
    (∀ e ∈ [(0, 2), (2, 0), (1, 1), (2, 1)], e.1 < 3 ∧ e.2 < 3) ∧
    ∃ g answers, (empty 3).addEdges? [(0, 2), (2, 0), (1, 1), (2, 1)] = some (g, answers) ∧
      answers = [true, false, false, true] ∧ g.edges = [(0, 2), (1, 2)] ∧
      g.adjacent? 1 1 = some false ∧ g.isSymmetric = true ∧
      2 * g.edgeCount = ((List.range 3).map g.degree).sum := by
  have hpairs : ∀ e ∈ [(0, 2), (2, 0), (1, 1), (2, 1)], e.1 < 3 ∧ e.2 < 3 := by decide
  obtain ⟨g, answers, hrun, _, hadjacent, hsymmetric, _, _, _, _, hsum⟩ :=
    matrix_represents_pairs hpairs
  have hlists : ((empty 3).addEdges? [(0, 2), (2, 0), (1, 1), (2, 1)]).map
      (fun r => (r.2, r.1.edges)) = some ([true, false, false, true], [(0, 2), (1, 2)]) := by
    decide
  rw [hrun, Option.map_some, Option.some.injEq, Prod.mk.injEq] at hlists
  refine ⟨hpairs, g, answers, hrun, hlists.1, hlists.2, ?_, hsymmetric, hsum⟩
  exact hadjacent 1 (by decide) 1 (by decide)

end RegAlloc.Graph
