import RegAlloc.Proofs.Coloring.Completeness

/-!
# The core of a graph

The core is the largest dense set, if there is a dense set at all. It holds every other one, and
whatever nodes are removed first, it is what is left when no node may be removed any more. So the
choice among the candidates decides neither whether simplification gets stuck nor on which nodes.
-/

namespace RegAlloc.Graph

variable {g : Graph} {k remaining : Nat} {rs : List Removal} {rest : List Nat}
  {core core' : Finset Nat}

/-- A dense set that holds all the others. -/
structure IsCore (g : Graph) (k : Nat) (core : Finset Nat) : Prop where
  dense : g.Dense k core
  greatest : ∀ nodes, g.Dense k nodes → nodes ⊆ core

theorem IsCore.unique (h : g.IsCore k core) (h' : g.IsCore k core') : core = core' :=
  Finset.Subset.antisymm (h'.greatest core h.dense) (h.greatest core' h'.dense)

/-- No order of removal can take a node of a dense set, so what is left in the end is the core. -/
theorem Peels.isCore_rest (h : g.Peels k (List.range g.size) rs rest) (hne : rest ≠ [])
    (hstuck : ∀ node ∈ rest, k ≤ g.degreeIn rest node) : g.IsCore k rest.toFinset where
  dense := h.dense_rest hne hstuck
  greatest _ hnodes := h.dense_subset List.nodup_range hnodes hnodes.subset_range

theorem Peels.card_rest (h : g.Peels k (List.range g.size) rs rest) :
    rest.toFinset.card = rest.length :=
  List.toFinset_card_of_nodup (h.nodup List.nodup_range)

/-- Simplification gets stuck on as many nodes as the core has. -/
theorem simplify_eq_error_iff :
    g.simplify k = .error remaining ↔ ∃ core, g.IsCore k core ∧ core.card = remaining := by
  obtain ⟨rs, rest, hpeels, hend⟩ := g.peels_simplify k
  rcases hend with ⟨hok, rfl⟩ | ⟨herror, hne, hstuck⟩
  · constructor
    · intro h
      rw [hok] at h
      cases h
    · rintro ⟨core, hcore, _⟩
      exact absurd hcore.dense (simplify_ok_iff.mp ⟨_, hok⟩ core)
  · have hrest := hpeels.isCore_rest hne hstuck
    rw [herror, Except.error.injEq]
    constructor
    · intro h
      exact ⟨rest.toFinset, hrest, hpeels.card_rest.trans h⟩
    · rintro ⟨core, hcore, hcard⟩
      rw [← hpeels.card_rest, hrest.unique hcore]
      exact hcard

/-- Every order of removal that cannot be continued ends as simplification does. -/
theorem Peels.simplify_eq (h : g.Peels k (List.range g.size) rs rest)
    (hstuck : ∀ node ∈ rest, k ≤ g.degreeIn rest node) :
    rest = [] ∧ (∃ stack, g.simplify k = .ok stack) ∨
      rest ≠ [] ∧ g.simplify k = .error rest.length := by
  by_cases hrest : rest = []
  · refine Or.inl ⟨hrest, simplify_ok_iff.mpr fun nodes hdense => ?_⟩
    obtain ⟨a, ha⟩ := hdense.nonempty
    have hmem := h.dense_subset List.nodup_range hdense hdense.subset_range ha
    simp [hrest] at hmem
  · exact Or.inr ⟨hrest, simplify_eq_error_iff.mpr ⟨_, h.isCore_rest hrest hstuck, h.card_rest⟩⟩

end RegAlloc.Graph

namespace RegAlloc

/-- An allocation runs out of registers just where simplification gets stuck. -/
theorem Program.allocate?_eq_insufficientRegisters_iff {p : Program} {palette : Palette} {g : Graph}
    {remaining size : Nat} :
    p.allocate? palette g = some (.failed (.insufficientRegisters remaining size)) ↔
      size = palette.size ∧ g.simplify palette.size = .error remaining := by
  unfold allocate?
  cases hstack : g.simplify palette.size with
  | error stuck =>
      simp only [Option.some.injEq, Status.failed.injEq, AllocError.insufficientRegisters.injEq,
        Except.error.injEq]
      constructor
      · rintro ⟨hstuck, hsize⟩
        exact ⟨hsize.symm, hstuck⟩
      · rintro ⟨hsize, hstuck⟩
        exact ⟨hstuck, hsize.symm⟩
  | ok stack => simp [select?, Graph.select_complete hstack]

/-- Simplification comes to its end exactly if there is no dense set. Otherwise it gets stuck on the
core, as every other order of removal does, and an allocation reports the size of the core together
with that of the palette. -/
theorem Graph.stuck_exactly_on_core (g : Graph) (palette : Palette) :
    ((∃ stack, g.simplify palette.size = .ok stack) ↔ ¬ ∃ nodes, g.Dense palette.size nodes) ∧
    (∀ remaining, g.simplify palette.size = .error remaining ↔
      ∃ core, g.Dense palette.size core ∧ (∀ nodes, g.Dense palette.size nodes → nodes ⊆ core) ∧
        core.card = remaining) ∧
    (∀ (p : Program) (remaining size : Nat),
      p.allocate? palette g = some (.failed (.insufficientRegisters remaining size)) ↔
        size = palette.size ∧ g.simplify palette.size = .error remaining) ∧
    ∀ rs rest, g.Peels palette.size (List.range g.size) rs rest →
      (∀ node ∈ rest, palette.size ≤ g.degreeIn rest node) →
      rest = [] ∧ (∃ stack, g.simplify palette.size = .ok stack) ∨
        rest ≠ [] ∧ g.simplify palette.size = .error rest.length := by
  refine ⟨by rw [simplify_ok_iff, not_exists], fun remaining => ?_, fun p remaining size =>
    Program.allocate?_eq_insufficientRegisters_iff, fun rs rest h => h.simplify_eq⟩
  rw [simplify_eq_error_iff]
  constructor
  · rintro ⟨core, hcore, hcard⟩
    exact ⟨core, hcore.dense, hcore.greatest, hcard⟩
  · rintro ⟨core, hdense, hgreatest, hcard⟩
    exact ⟨core, ⟨hdense, hgreatest⟩, hcard⟩

end RegAlloc
