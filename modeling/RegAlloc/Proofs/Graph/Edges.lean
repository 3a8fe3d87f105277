import RegAlloc.Interference

/-!
# Edges of conflict graphs

Which nodes the matrix of a graph joins, and how adding edges changes that. The matrix is read and
written through cell numbers; from here on only `Graph.Edge` is used.
-/

namespace RegAlloc.Graph

/-- `a` and `b` are nodes of the graph and joined by an edge. -/
def Edge (g : Graph) (a b : Nat) : Prop :=
  a < g.size ∧ b < g.size ∧ g.adjacent a b = true

/-- Edges have no direction and join two different nodes. -/
structure Undirected (g : Graph) : Prop where
  symm : ∀ {a b : Nat}, g.Edge a b → g.Edge b a
  irrefl : ∀ a : Nat, ¬ g.Edge a a

/-! ## Cells -/

theorem cell_lt {g : Graph} {a b : Nat} (ha : a < g.size) (hb : b < g.size) :
    g.cell a b < g.cells.size := by
  rw [g.size_cells]
  calc
    a * g.size + b < a * g.size + g.size := Nat.add_lt_add_left hb _
    _ = (a + 1) * g.size := (Nat.succ_mul a g.size).symm
    _ ≤ g.size * g.size := Nat.mul_le_mul_right _ ha

theorem lt_of_cell_lt {g : Graph} {a b : Nat} (h : g.cell a b < g.cells.size) : a < g.size := by
  rw [g.size_cells] at h
  refine Nat.lt_of_not_le fun hle => ?_
  have hmul : g.size * g.size ≤ a * g.size := Nat.mul_le_mul_right _ hle
  unfold cell at h
  omega

theorem covers_iff {g : Graph} {a b : Nat} :
    g.covers a b = true ↔ a < g.size ∧ b < g.size := by
  simp only [covers, Bool.and_eq_true, decide_eq_true_eq]
  constructor
  · intro h
    exact ⟨lt_of_cell_lt h.1, lt_of_cell_lt h.2⟩
  · intro h
    exact ⟨cell_lt h.1 h.2, cell_lt h.2 h.1⟩

/-- A row ends where the next one begins, so a cell number determines row and column. -/
theorem cell_inj {g : Graph} {a b x y : Nat} (hb : b < g.size) (hy : y < g.size) :
    g.cell a b = g.cell x y ↔ a = x ∧ b = y := by
  constructor
  · intro h
    have hpos : 0 < g.size := Nat.zero_lt_of_lt hb
    have hrow : a = x := by
      have hdiv := congrArg (· / g.size) h
      simpa [cell, Nat.mul_comm _ g.size, Nat.mul_add_div hpos, Nat.div_eq_of_lt hb,
        Nat.div_eq_of_lt hy] using hdiv
    subst hrow
    exact ⟨rfl, Nat.add_left_cancel h⟩
  · rintro ⟨rfl, rfl⟩
    rfl

theorem lt_of_adjacent {g : Graph} {a b : Nat} (h : g.adjacent a b = true) : a < g.size := by
  apply lt_of_cell_lt (b := b)
  refine Nat.lt_of_not_le fun hle => ?_
  simp [adjacent, Array.getD, Nat.not_lt.mpr hle] at h

theorem adjacent?_eq_some {g : Graph} {a b : Nat} (ha : a < g.size) (hb : b < g.size) :
    g.adjacent? a b = some (g.adjacent a b) := by
  simp [adjacent?, adjacent, cell_lt ha hb]

theorem neighbors?_eq_some {g : Graph} {node : Nat} (h : node < g.size) :
    g.neighbors? node = some (g.neighbors node) := by
  have hrow : (node + 1) * g.size ≤ g.cells.size := by
    rw [g.size_cells]
    exact Nat.mul_le_mul_right g.size h
  rw [neighbors?, if_pos hrow]

/-! ## Adding edges -/

theorem not_edge_empty (n a b : Nat) : ¬ (empty n).Edge a b := by
  rintro ⟨_, _, h⟩
  simp [adjacent, empty, Array.getD] at h

/-- `g'` has the nodes of `g` and, besides its edges, those between different nodes in relation
`R`. -/
structure Adds (g g' : Graph) (R : Nat → Nat → Prop) : Prop where
  size_eq : g'.size = g.size
  edge_iff : ∀ {x y : Nat}, g'.Edge x y ↔
    g.Edge x y ∨ (x < g.size ∧ y < g.size ∧ x ≠ y ∧ R x y)

theorem Adds.congr {g g' : Graph} {R S : Nat → Nat → Prop} (h : g.Adds g' R)
    (hiff : ∀ x y, x ≠ y → (R x y ↔ S x y)) : g.Adds g' S where
  size_eq := h.size_eq
  edge_iff := by
    intro x y
    rw [h.edge_iff]
    apply or_congr_right
    apply and_congr_right
    intro _
    apply and_congr_right
    intro _
    exact and_congr_right (hiff x y)

theorem adds_nothing (g : Graph) : g.Adds g fun _ _ => False where
  size_eq := rfl
  edge_iff := by simp

theorem Adds.trans {g g₁ g₂ : Graph} {R S : Nat → Nat → Prop} (h₁ : g.Adds g₁ R)
    (h₂ : g₁.Adds g₂ S) : g.Adds g₂ fun x y => R x y ∨ S x y where
  size_eq := h₂.size_eq.trans h₁.size_eq
  edge_iff := by
    intro x y
    rw [h₂.edge_iff, h₁.edge_iff, h₁.size_eq, or_assoc, ← and_or_left, ← and_or_left,
      ← and_or_left]

/-- Steps that each add edges add together what any of them adds. -/
theorem adds_foldl {β : Type} {step : Graph → β → Graph} {R : β → Nat → Nat → Prop}
    (hstep : ∀ (g : Graph) (b : β), g.Adds (step g b) (R b)) (bs : List β) (g : Graph) :
    g.Adds (bs.foldl step g) fun x y => ∃ b ∈ bs, R b x y := by
  induction bs generalizing g with
  | nil =>
      apply g.adds_nothing.congr
      simp
  | cons b bs ih =>
      apply ((hstep g b).trans (ih (step g b))).congr
      simp

theorem adjacent_mark {g : Graph} {a b x y : Nat} (ha : a < g.size) (hb : b < g.size)
    (hy : y < g.size) :
    (g.mark a b).adjacent x y = true ↔
      g.adjacent x y = true ∨ (x = a ∧ y = b) ∨ (x = b ∧ y = a) := by
  have hab : g.cell a b = g.cell x y ↔ x = a ∧ y = b :=
    (cell_inj hb hy).trans (and_congr eq_comm eq_comm)
  have hba : g.cell b a = g.cell x y ↔ x = b ∧ y = a :=
    (cell_inj ha hy).trans (and_congr eq_comm eq_comm)
  have hread : (g.mark a b).adjacent x y =
      ((g.cells.setIfInBounds (g.cell a b) true).setIfInBounds (g.cell b a) true).getD
        (g.cell x y) false := rfl
  rw [hread]
  simp only [adjacent, Array.getD_eq_getD_getElem?, Array.getElem?_setIfInBounds,
    Array.size_setIfInBounds, hab, hba, cell_lt ha hb, cell_lt hb ha, ite_true]
  by_cases hxba : x = b ∧ y = a
  · simp [hxba]
  · by_cases hxab : x = a ∧ y = b
    · simp [hxab]
    · simp [hxab, hxba]

theorem adds_addEdge (g : Graph) (a b : Nat) :
    g.Adds (g.addEdge a b) fun x y => (x = a ∧ y = b) ∨ (x = b ∧ y = a) := by
  unfold addEdge
  split
  · rename_i heq
    subst heq
    apply g.adds_nothing.congr
    intro x y hne
    constructor
    · exact False.elim
    · omega
  · split
    · rename_i hne hcovers
      obtain ⟨ha, hb⟩ := covers_iff.mp hcovers
      refine ⟨rfl, ?_⟩
      intro x y
      constructor
      · rintro ⟨hx, hy, h⟩
        rcases (adjacent_mark ha hb hy).mp h with h | h
        · exact Or.inl ⟨hx, hy, h⟩
        · exact Or.inr ⟨hx, hy, by omega, h⟩
      · rintro (⟨hx, hy, h⟩ | ⟨hx, hy, _, h⟩)
        · exact ⟨hx, hy, (adjacent_mark ha hb hy).mpr (Or.inl h)⟩
        · exact ⟨hx, hy, (adjacent_mark ha hb hy).mpr (Or.inr h)⟩
    · rename_i hcovers
      rw [covers_iff] at hcovers
      refine ⟨rfl, ?_⟩
      intro x y
      constructor
      · exact Or.inl
      · rintro (h | ⟨hx, hy, _, h⟩)
        · exact h
        · omega

/-- The edge between two nodes is new unless they are the same or joined already. -/
theorem addEdge?_eq_some {g : Graph} {a b : Nat} (ha : a < g.size) (hb : b < g.size) :
    g.addEdge? a b = some (g.addEdge a b, decide (a ≠ b) && !g.adjacent a b) := by
  unfold addEdge? addEdge
  rw [covers_iff.mpr ⟨ha, hb⟩]
  by_cases heq : a = b <;> simp [heq]

theorem adds_joinEach (g : Graph) (a : Nat) (bs : List Nat) :
    g.Adds (g.joinEach a bs) fun x y => (x = a ∧ y ∈ bs) ∨ (x ∈ bs ∧ y = a) := by
  apply (adds_foldl (fun g b => g.adds_addEdge a b) bs g).congr
  intro x y _
  constructor
  · rintro ⟨b, hb, ⟨rfl, rfl⟩ | ⟨rfl, rfl⟩⟩
    · exact Or.inl ⟨rfl, hb⟩
    · exact Or.inr ⟨hb, rfl⟩
  · rintro (⟨rfl, hy⟩ | ⟨hx, rfl⟩)
    · exact ⟨y, hy, Or.inl ⟨rfl, rfl⟩⟩
    · exact ⟨x, hx, Or.inr ⟨rfl, rfl⟩⟩

theorem adds_joinAll (g : Graph) (as : List Nat) :
    g.Adds (g.joinAll as) fun x y => x ∈ as ∧ y ∈ as := by
  induction as generalizing g with
  | nil =>
      apply g.adds_nothing.congr
      simp
  | cons a as ih =>
      apply ((g.adds_joinEach a as).trans (ih (g.joinEach a as))).congr
      intro x y hne
      simp only [List.mem_cons]
      constructor
      · rintro ((⟨hx, hy⟩ | ⟨hx, hy⟩) | ⟨hx, hy⟩)
        · exact ⟨Or.inl hx, Or.inr hy⟩
        · exact ⟨Or.inr hx, Or.inl hy⟩
        · exact ⟨Or.inr hx, Or.inr hy⟩
      · rintro ⟨hx | hx, hy | hy⟩
        · exact absurd (hx.trans hy.symm) hne
        · exact Or.inl (Or.inl ⟨hx, hy⟩)
        · exact Or.inl (Or.inr ⟨hx, hy⟩)
        · exact Or.inr ⟨hx, hy⟩

/-! ## Listing edges -/

theorem mem_neighbors {g : Graph} {a b : Nat} : b ∈ g.neighbors a ↔ g.Edge a b := by
  simp only [neighbors, List.mem_filter, List.mem_range, Edge]
  constructor
  · rintro ⟨hb, h⟩
    exact ⟨lt_of_adjacent h, hb, h⟩
  · rintro ⟨_, hb, h⟩
    exact ⟨hb, h⟩

theorem mem_edges {g : Graph} {a b : Nat} : (a, b) ∈ g.edges ↔ g.Edge a b ∧ a < b := by
  simp only [edges, List.mem_flatMap, List.mem_range, List.mem_map, List.mem_filter,
    mem_neighbors, decide_eq_true_eq]
  constructor
  · rintro ⟨c, _, d, ⟨hedge, hlt⟩, heq⟩
    obtain ⟨rfl, rfl⟩ := Prod.mk.inj heq
    exact ⟨hedge, hlt⟩
  · rintro ⟨hedge, hlt⟩
    exact ⟨a, hedge.1, b, ⟨hedge, hlt⟩, rfl⟩

/-! ## The check of symmetry -/

theorem isSymmetric_iff {g : Graph} : g.isSymmetric = true ↔ g.Undirected := by
  simp only [isSymmetric, List.all_eq_true, List.mem_range, Bool.and_eq_true, Bool.not_eq_true',
    beq_iff_eq]
  constructor
  · intro h
    constructor
    · rintro a b ⟨ha, hb, hab⟩
      exact ⟨hb, ha, (h a ha).2 b hb ▸ hab⟩
    · rintro a ⟨ha, _, haa⟩
      rw [(h a ha).1] at haa
      cases haa
  · intro h a ha
    refine ⟨Bool.eq_false_iff.mpr fun haa => h.irrefl a ⟨ha, ha, haa⟩, fun b hb => ?_⟩
    rw [Bool.eq_iff_iff]
    exact ⟨fun hab => (h.symm ⟨ha, hb, hab⟩).2.2, fun hba => (h.symm ⟨hb, ha, hba⟩).2.2⟩

/-! ## Graphs with the same edges -/

/-- A cell number below the size of the matrix has a row and a column. -/
theorem exists_cell {g : Graph} {k : Nat} (h : k < g.cells.size) :
    ∃ a b, a < g.size ∧ b < g.size ∧ g.cell a b = k := by
  rw [g.size_cells] at h
  have hpos : 0 < g.size := Nat.pos_of_mul_pos_right (Nat.zero_lt_of_lt h)
  exact ⟨k / g.size, k % g.size, Nat.div_lt_of_lt_mul h, Nat.mod_lt k hpos, by
    rw [cell, Nat.mul_comm]
    exact Nat.div_add_mod k g.size⟩

theorem eq_of_edge_iff {g h : Graph} (hsize : g.size = h.size)
    (hedge : ∀ a b, g.Edge a b ↔ h.Edge a b) : g = h := by
  have hcells : g.cells = h.cells := by
    have hlength : g.cells.size = h.cells.size := by rw [g.size_cells, h.size_cells, hsize]
    refine Array.ext hlength fun k hk hk' => ?_
    obtain ⟨a, b, ha, hb, rfl⟩ := exists_cell hk
    have hcell : h.cell a b = g.cell a b := by rw [cell, cell, hsize]
    have hiff : g.adjacent a b = true ↔ h.adjacent a b = true := by
      simpa [Edge, ha, hb, ← hsize] using hedge a b
    rw [adjacent, adjacent, hcell] at hiff
    simpa [Array.getD, hk, hk'] using hiff
  cases g
  cases h
  cases hsize
  cases hcells
  rfl

end RegAlloc.Graph
