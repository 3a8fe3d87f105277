import Mathlib.Data.Finset.Lattice.Fold
import Mathlib.Order.Lattice.Nat
import RegAlloc.Proofs.Coloring.Completeness

/-!
# First fit

Selection gives to each node the first slot that no neighbor holds, and a node keeps its slot. So a
node has the least slot that is held by none of its neighbors further down the stack, the slots in
use are the first ones of the palette, and there is at most one more of them than a node has
neighbors.
-/

namespace RegAlloc

/-- A set without gaps holds the numbers below its size. -/
theorem IdSet.mem_iff_lt_size {s : IdSet} (h : ∀ i ∈ s, ∀ j < i, j ∈ s) {i : Nat} :
    i ∈ s ↔ i < s.size := by
  have hnodup : s.toList.Nodup := s.ascending.imp fun hlt => Nat.ne_of_lt hlt
  constructor
  · intro hi
    have hsubset : List.range (i + 1) ⊆ s.toList := by
      intro j hj
      rcases Nat.lt_succ_iff_lt_or_eq.mp (List.mem_range.mp hj) with hlt | rfl
      · exact h i hi j hlt
      · exact hi
    have hle := (List.nodup_range.subperm hsubset).length_le
    rwa [List.length_range] at hle
  · intro hlt
    by_contra hi
    have hsubset : s.toList ⊆ List.range i := by
      intro j hj
      refine List.mem_range.mpr (Nat.lt_of_not_le fun hle => ?_)
      rcases Nat.lt_or_eq_of_le hle with hij | rfl
      · exact hi (h j hj i hij)
      · exact hi hj
    have hle := (hnodup.subperm hsubset).length_le
    rw [List.length_range] at hle
    exact Nat.not_le.mpr hlt hle

namespace Graph

variable {g : Graph} {palette : Palette} {colors : Array (Option Slot)} {node a : Nat} {slot : Slot}

/-- Highest number of neighbors of a node. -/
def maxDegree (g : Graph) : Nat := (Finset.range g.size).sup g.degree

/-- Of the slots that no neighbor of `node` among `others` holds, `slot` is the first. -/
structure LeastFree (g : Graph) (colors : Array (Option Slot)) (others : List Nat) (node : Nat)
    (slot : Slot) : Prop where
  free : ∀ m ∈ others, g.Edge node m → colorAt colors m ≠ some slot
  least : ∀ i < slot.index, ∃ m ∈ others, g.Edge node m ∧ colorAt colors m = some ⟨i⟩

/-! ## One pick -/

/-- Every slot before the first free one is held by a neighbor. -/
theorem exists_edge_of_freeSlot? (h : g.freeSlot? palette colors node = some slot) {i : Nat}
    (hi : i < slot.index) : ∃ m, g.Edge node m ∧ colorAt colors m = some ⟨i⟩ := by
  rw [freeSlot?, Palette.slots, List.find?_map] at h
  obtain ⟨n, hfirst, rfl⟩ := Option.map_eq_some_iff.mp h
  have hheld := (List.find?_range_eq_some.mp hfirst).2.2 i hi
  simpa [mem_neighbors] using hheld

/-- The slot that a node gets is the first that is free among the nodes that hold one, for as long as
these keep theirs. -/
theorem leastFree_of_freeSlot? {final : Array (Option Slot)} {earlier : List Nat}
    (h : g.freeSlot? palette colors node = some slot)
    (hearlier : ∀ m, (colorAt colors m).isSome = true → m ∈ earlier)
    (hkeep : ∀ m ∈ earlier, colorAt final m = colorAt colors m) :
    g.LeastFree final earlier node slot where
  free m hm hedge := by
    rw [hkeep m hm]
    exact (freeSlot?_spec h).2 m hedge
  least i hi := by
    obtain ⟨m, hedge, hcolor⟩ := exists_edge_of_freeSlot? h hi
    have hm := hearlier m (by rw [hcolor]; rfl)
    exact ⟨m, hm, hedge, (hkeep m hm).trans hcolor⟩

/-- A node has at least as many neighbors as there are slots before its own. -/
theorem LeastFree.index_le_degree {others : List Nat} (h : g.LeastFree colors others node slot) :
    slot.index ≤ g.degree node := by
  have hheld : List.range slot.index ⊆
      (g.neighbors node).filterMap fun m => (colorAt colors m).map Slot.index := by
    intro i hi
    obtain ⟨m, _, hedge, hcolor⟩ := h.least i (List.mem_range.mp hi)
    exact List.mem_filterMap.mpr ⟨m, mem_neighbors.mpr hedge, by rw [hcolor]; rfl⟩
  calc
    slot.index = (List.range slot.index).length := List.length_range.symm
    _ ≤ ((g.neighbors node).filterMap fun m => (colorAt colors m).map Slot.index).length :=
      (List.nodup_range.subperm hheld).length_le
    _ ≤ g.degree node := List.length_filterMap_le _ _

/-! ## Runs -/

/-- Selection leaves the slots of all other nodes alone. -/
theorem colorAt_selectFrom_of_not_mem {nodes : List Nat} (hsize : colors.size = g.size)
    (ha : a ∉ nodes) : colorAt (g.selectFrom palette colors nodes).colors a = colorAt colors a := by
  induction nodes generalizing colors with
  | nil => rfl
  | cons node nodes ih =>
      rw [List.mem_cons, not_or] at ha
      by_cases hnode : node < g.size
      · cases hfree : g.freeSlot? palette colors node with
        | none => simp [selectFrom, hnode, hfree]
        | some slot =>
            rw [selectFrom_cons_of_free hnode hfree]
            have hsize' : (colors.setIfInBounds node (some slot)).size = g.size := by
              simpa using hsize
            refine (ih hsize' ha.2).trans ?_
            rw [colorAt_set colors (hsize ▸ hnode), if_neg ha.1]
      · simp [selectFrom, hnode]

/-- In a run over different nodes each gets the first slot that is free among those before it, and
keeps it. `earlier` are the nodes that had a slot when the run began. -/
theorem leastFree_of_selectFrom {nodes earlier : List Nat} (hsize : colors.size = g.size)
    (hearlier : ∀ m, (colorAt colors m).isSome = true → m ∈ earlier)
    (hdistinct : (earlier ++ nodes).Nodup)
    (hend : (g.selectFrom palette colors nodes).ending = .complete) {front rest : List Nat}
    (hsplit : nodes = front ++ node :: rest) :
    ∃ slot, colorAt (g.selectFrom palette colors nodes).colors node = some slot ∧
      g.LeastFree (g.selectFrom palette colors nodes).colors (earlier ++ front) node slot := by
  induction nodes generalizing colors earlier front with
  | nil => simp at hsplit
  | cons first nodes ih =>
      have hfirst : first < g.size := by
        refine Nat.lt_of_not_le fun hle => ?_
        simp [selectFrom, Nat.not_lt.mpr hle] at hend
      cases hfree : g.freeSlot? palette colors first with
      | none => simp [selectFrom, hfirst, hfree] at hend
      | some slot =>
          rw [selectFrom_cons_of_free hfirst hfree] at hend ⊢
          have hset := colorAt_set colors (hsize ▸ hfirst) slot
          have hsize' : (colors.setIfInBounds first (some slot)).size = g.size := by
            simpa using hsize
          cases front with
          | nil =>
              obtain ⟨rfl, rfl⟩ := List.cons.inj hsplit
              have hkeep : ∀ m ∉ nodes, colorAt (g.selectFrom palette
                  (colors.setIfInBounds first (some slot)) nodes).colors m =
                    if m = first then some slot else colorAt colors m :=
                fun m hm => (colorAt_selectFrom_of_not_mem hsize' hm).trans (hset m)
              have hnew : first ∉ nodes := (List.nodup_cons.mp hdistinct.of_append_right).1
              refine ⟨slot, by simp [hkeep first hnew], ?_⟩
              rw [List.append_nil]
              refine leastFree_of_freeSlot? hfree hearlier fun m hm => ?_
              have hother := (List.nodup_append.mp hdistinct).2.2 m hm
              have hm' : m ∉ nodes := fun hmem => hother m (List.mem_cons_of_mem first hmem) rfl
              rw [hkeep m hm', if_neg (hother first List.mem_cons_self)]
          | cons second front =>
              obtain ⟨rfl, rfl⟩ := List.cons.inj hsplit
              have hearlier' : ∀ m, (colorAt (colors.setIfInBounds first (some slot)) m).isSome →
                  m ∈ earlier ++ [first] := by
                intro m hm
                rw [hset] at hm
                split at hm
                · rename_i heq
                  simp [heq]
                · simp [hearlier m hm]
              simpa using ih hsize' hearlier' (by simpa using hdistinct) hend rfl

/-- A node of the stack has the first slot that is free among the neighbors behind it. -/
theorem leastFree_of_select {stack front rest : List Nat} (hdistinct : stack.Nodup)
    (hend : (g.select palette stack).ending = .complete) (hsplit : stack = front ++ node :: rest) :
    ∃ slot, colorAt (g.select palette stack).colors node = some slot ∧
      g.LeastFree (g.select palette stack).colors rest node slot := by
  have hblank : ∀ m, (colorAt (Array.replicate g.size none) m).isSome = true → m ∈ [] := by
    intro m hm
    simp [colorAt_replicate] at hm
  obtain ⟨slot, hslot, hfree, hleast⟩ := leastFree_of_selectFrom Array.size_replicate hblank
    (List.nodup_reverse.mpr hdistinct) hend (show stack.reverse = rest.reverse ++ node ::
      front.reverse by simp [hsplit])
  refine ⟨slot, hslot, fun m hm => hfree m (by simpa using hm), fun i hi => ?_⟩
  obtain ⟨m, hm, hedge, hcolor⟩ := hleast i hi
  exact ⟨m, by simpa using hm, hedge, hcolor⟩

/-! ## The slots in use -/

section Complete

variable {stack : List Nat} (hg : g.Undirected) (hstack : stack.Perm (List.range g.size))
  (hend : (g.select palette stack).ending = .complete)

include hg hstack hend

/-- Every slot in use is the first free one of some node. -/
theorem exists_leastFree_of_mem_slots (hslot : slot ∈ (g.select palette stack).slots) :
    ∃ x rest, x < g.size ∧ palette.contains slot = true ∧
      g.LeastFree (g.select palette stack).colors rest x slot := by
  obtain ⟨x, hx⟩ := List.mem_iff_getElem?.mp hslot
  rw [getElem?_slots_select hg hstack hend] at hx
  have hpartial : g.PartialColoring palette (g.select palette stack).colors :=
    selectFrom_partialColoring hg (g.partialColoring_blank palette)
  have hlt : x < g.size := by
    refine Nat.lt_of_not_le fun hle => ?_
    rw [colorAt, Array.getD_eq_getD_getElem?,
      Array.getElem?_eq_none (hpartial.size_eq ▸ hle)] at hx
    cases hx
  have hmem : x ∈ stack := hstack.mem_iff.mpr (List.mem_range.mpr hlt)
  obtain ⟨front, rest, hsplit⟩ := List.append_of_mem hmem
  obtain ⟨slot', hslot', hleast⟩ :=
    leastFree_of_select (hstack.nodup_iff.mpr List.nodup_range) hend hsplit
  obtain rfl : slot' = slot := Option.some.inj (hslot'.symm.trans hx)
  exact ⟨x, rest, hlt, hpartial.inPalette hx, hleast⟩

/-- With a slot all slots before it are in use. -/
theorem mem_slots_of_lt (hslot : slot ∈ (g.select palette stack).slots) {i : Nat}
    (hi : i < slot.index) : ⟨i⟩ ∈ (g.select palette stack).slots := by
  obtain ⟨x, rest, _, _, hleast⟩ := exists_leastFree_of_mem_slots hg hstack hend hslot
  obtain ⟨m, _, _, hcolor⟩ := hleast.least i hi
  rw [← getElem?_slots_select hg hstack hend] at hcolor
  exact List.mem_of_getElem? hcolor

/-- A slot in use lies in the palette, and some node has neighbors with all slots before it. -/
theorem number_le_of_mem_slots (hslot : slot ∈ (g.select palette stack).slots) :
    slot.number ≤ palette.size ∧ slot.number ≤ g.maxDegree + 1 := by
  obtain ⟨x, rest, hx, hcontains, hleast⟩ := exists_leastFree_of_mem_slots hg hstack hend hslot
  have hdegree : g.degree x ≤ g.maxDegree :=
    @Finset.le_sup _ _ _ _ (Finset.range g.size) g.degree x (Finset.mem_range.mpr hx)
  exact ⟨of_decide_eq_true hcontains, Nat.succ_le_succ (hleast.index_le_degree.trans hdegree)⟩

end Complete

end Graph

end RegAlloc
