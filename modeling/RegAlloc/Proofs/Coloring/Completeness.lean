import Mathlib.Data.Finset.Card
import RegAlloc.Proofs.Allocation.Correctness

/-!
# When a graph can be colored

A set of nodes is dense if each of them has `k` or more neighbors in it. Simplification never removes
a node of a dense set, and the nodes on which it gets stuck are one. Without a dense set it comes to
its end, and then every node has a free slot when selection comes to it: of its neighbors, only those
that were removed later hold a slot, and they are fewer than `k`.
-/

namespace RegAlloc

/-! ## The candidate for removal -/

namespace Removal

variable {k : Nat} {left : List Removal} {r : Removal}

theorem foldl_better_eq_none_iff {best : Option Removal} :
    left.foldl (better k) best = none ↔ best = none ∧ ∀ r ∈ left, k ≤ r.degree := by
  induction left generalizing best with
  | nil => simp
  | cons q left ih =>
      rw [List.foldl_cons, ih, better]
      by_cases hq : q.degree < k
      · cases best with
        | none => simp [hq]
        | some b => by_cases hb : b.degree < q.degree <;> simp [hq, hb]
      · simp [hq, Nat.not_lt.mp hq]

theorem candidate?_eq_none_iff : candidate? k left = none ↔ ∀ r ∈ left, k ≤ r.degree := by
  simp [candidate?, foldl_better_eq_none_iff]

theorem degree_lt_of_foldl_better {best : Option Removal}
    (h : left.foldl (better k) best = some r) : r.degree < k ∨ best = some r := by
  induction left generalizing best with
  | nil => exact Or.inr h
  | cons q left ih =>
      rcases ih h with hlt | hbest
      · exact Or.inl hlt
      · unfold better at hbest
        split at hbest
        · rename_i hbetter
          exact Or.inl (Option.some.inj hbest ▸ hbetter.1)
        · exact Or.inr hbest

theorem degree_lt_of_candidate? (h : candidate? k left = some r) : r.degree < k := by
  rcases degree_lt_of_foldl_better h with hlt | hnone
  · exact hlt
  · cases hnone

end Removal

namespace Graph

variable {g : Graph} {k : Nat} {left rest : List Nat} {rs : List Removal}

/-! ## Orders of removal -/

/-- Removing `rs` from `left` one by one leaves `rest`. Each node has fewer than `k` neighbors among
those left when it is removed. -/
inductive Peels (g : Graph) (k : Nat) : List Nat → List Removal → List Nat → Prop where
  | done (left : List Nat) : Peels g k left [] left
  | remove {left rest : List Nat} {rs : List Removal} {node : Nat} :
      node ∈ left → g.degreeIn left node < k → Peels g k (left.erase node) rs rest →
      Peels g k left (⟨node, g.degreeIn left node⟩ :: rs) rest

/-- Simplification removes nodes until none is left, or none that may be removed. -/
theorem peels_simplifyFrom (n : Nat) (hlength : left.length = n) (hdistinct : left.Nodup) :
    ∃ rest, g.Peels k left (g.simplifyFrom k n (g.tally left)).1 rest ∧
      ((g.simplifyFrom k n (g.tally left)).2 = none ∧ rest = [] ∨
        (g.simplifyFrom k n (g.tally left)).2 = some rest.length ∧ rest ≠ [] ∧
          ∀ node ∈ rest, k ≤ g.degreeIn rest node) := by
  induction n generalizing left with
  | zero =>
      obtain rfl := List.length_eq_zero_iff.mp hlength
      exact ⟨[], .done [], Or.inl ⟨rfl, rfl⟩⟩
  | succ n ih =>
      rw [simplifyFrom]
      cases hbest : Removal.candidate? k (g.tally left) with
      | none =>
          refine ⟨left, .done left, Or.inr ⟨by rw [hlength], ?_, ?_⟩⟩
          · exact List.ne_nil_of_length_pos (hlength ▸ Nat.succ_pos n)
          · intro node hnode
            exact Removal.candidate?_eq_none_iff.mp hbest _ (List.mem_map_of_mem hnode)
      | some r =>
          obtain ⟨node, hnode, rfl⟩ := List.mem_map.mp (Removal.mem_of_candidate? hbest)
          have hlength' : (left.erase node).length = n := by
            rw [List.length_erase_of_mem hnode, hlength]
            rfl
          obtain ⟨rest, hpeels, hend⟩ := ih hlength' (hdistinct.erase node)
          simp only [g.without_tally hdistinct hnode]
          exact ⟨rest, .remove hnode (Removal.degree_lt_of_candidate? hbest) hpeels, hend⟩

theorem peels_simplify (g : Graph) (k : Nat) :
    ∃ rs rest, g.Peels k (List.range g.size) rs rest ∧
      (g.simplify k = .ok (rs.map Removal.node) ∧ rest = [] ∨
        g.simplify k = .error rest.length ∧ rest ≠ [] ∧
          ∀ node ∈ rest, k ≤ g.degreeIn rest node) := by
  obtain ⟨rest, hpeels, hend⟩ :=
    @peels_simplifyFrom g k _ g.size List.length_range List.nodup_range
  refine ⟨_, rest, hpeels, ?_⟩
  cases hrun : g.simplifyFrom k g.size (g.tally (List.range g.size)) with
  | mk rs stuck =>
      rw [hrun] at hend
      rcases hend with ⟨rfl, hrest⟩ | ⟨rfl, hstuck⟩
      · exact Or.inl ⟨by simp [simplify, simplifyTrace, hrun], hrest⟩
      · exact Or.inr ⟨by simp [simplify, simplifyTrace, hrun], hstuck⟩

theorem Peels.subset (h : g.Peels k left rs rest) : rest ⊆ left := by
  induction h with
  | done left => exact fun _ hmem => hmem
  | remove _ _ _ ih => exact fun a ha => List.mem_of_mem_erase (ih ha)

theorem Peels.nodup (h : g.Peels k left rs rest) (hdistinct : left.Nodup) : rest.Nodup := by
  induction h with
  | done left => exact hdistinct
  | remove _ _ _ ih => exact ih (hdistinct.erase _)

/-! ## Dense sets -/

/-- Nodes of which each has `k` or more neighbors among them. -/
structure Dense (g : Graph) (k : Nat) (nodes : Finset Nat) : Prop where
  nonempty : nodes.Nonempty
  lt_size : ∀ a ∈ nodes, a < g.size
  le_degree : ∀ a ∈ nodes, k ≤ (nodes.filter fun b => g.adjacent a b = true).card

variable {nodes : Finset Nat}

theorem card_filter_toFinset (hdistinct : left.Nodup) (a : Nat) :
    (left.toFinset.filter fun b => g.adjacent a b = true).card = g.degreeIn left a := by
  rw [degreeIn, List.countP_eq_length_filter, ← List.toFinset_filter,
    List.toFinset_card_of_nodup (hdistinct.filter _)]

theorem Dense.le_degreeIn (h : g.Dense k nodes) (hdistinct : left.Nodup)
    (hsubset : nodes ⊆ left.toFinset) {a : Nat} (ha : a ∈ nodes) : k ≤ g.degreeIn left a := by
  rw [← card_filter_toFinset hdistinct]
  exact (h.le_degree a ha).trans (Finset.card_le_card (Finset.filter_subset_filter _ hsubset))

/-- A removed node is in no dense set, so a dense set stays whole. -/
theorem Peels.dense_subset (h : g.Peels k left rs rest) (hdistinct : left.Nodup)
    (hdense : g.Dense k nodes) (hsubset : nodes ⊆ left.toFinset) : nodes ⊆ rest.toFinset := by
  induction h with
  | done left => exact hsubset
  | @remove left rest rs node hnode hdegree _ ih =>
      refine ih (hdistinct.erase node) fun a ha => ?_
      have hne : a ≠ node := by
        rintro rfl
        exact Nat.not_le.mpr hdegree (hdense.le_degreeIn hdistinct hsubset ha)
      rw [List.mem_toFinset, List.mem_erase_of_ne hne]
      exact List.mem_toFinset.mp (hsubset ha)

theorem Dense.subset_range (h : g.Dense k nodes) : nodes ⊆ (List.range g.size).toFinset := by
  intro a ha
  rw [List.mem_toFinset, List.mem_range]
  exact h.lt_size a ha

/-- The nodes that are left when none may be removed any more are a dense set. -/
theorem Peels.dense_rest (h : g.Peels k (List.range g.size) rs rest) (hne : rest ≠ [])
    (hstuck : ∀ node ∈ rest, k ≤ g.degreeIn rest node) : g.Dense k rest.toFinset where
  nonempty := (List.toFinset_nonempty_iff rest).mpr hne
  lt_size a ha := List.mem_range.mp (h.subset (List.mem_toFinset.mp ha))
  le_degree a ha := by
    rw [card_filter_toFinset (h.nodup List.nodup_range)]
    exact hstuck a (List.mem_toFinset.mp ha)

/-- Simplification comes to its end exactly if there is no dense set. -/
theorem simplify_ok_iff : (∃ stack, g.simplify k = .ok stack) ↔ ∀ nodes, ¬ g.Dense k nodes := by
  obtain ⟨rs, rest, hpeels, hend⟩ := g.peels_simplify k
  rcases hend with ⟨hok, rfl⟩ | ⟨herror, hne, hdegree⟩
  · refine ⟨fun _ nodes hdense => ?_, fun _ => ⟨_, hok⟩⟩
    obtain ⟨a, ha⟩ := hdense.nonempty
    have hnil := hpeels.dense_subset List.nodup_range hdense hdense.subset_range ha
    simp at hnil
  · constructor
    · rintro ⟨stack, hok⟩
      rw [herror] at hok
      cases hok
    · intro hnone
      exact absurd (hpeels.dense_rest hne hdegree) (hnone rest.toFinset)

theorem Dense.of_le {k' : Nat} (h : g.Dense k' nodes) (hle : k ≤ k') : g.Dense k nodes :=
  ⟨h.nonempty, h.lt_size, fun a ha => hle.trans (h.le_degree a ha)⟩

/-- A set that is dense in a graph is dense in one with more edges. -/
theorem Dense.of_edge {g' : Graph} (h : g.Dense k nodes) (hsize : g.size = g'.size)
    (hedge : ∀ a b, g.Edge a b → g'.Edge a b) : g'.Dense k nodes := by
  refine ⟨h.nonempty, fun a ha => hsize ▸ h.lt_size a ha, fun a ha => ?_⟩
  refine (h.le_degree a ha).trans (Finset.card_le_card fun b hb => ?_)
  rw [Finset.mem_filter] at hb ⊢
  exact ⟨hb.1, (hedge a b ⟨h.lt_size a ha, h.lt_size b hb.1, hb.2⟩).2.2⟩

/-! ## Selection after simplification -/

variable {palette : Palette} {colors : Array (Option Slot)} {node : Nat}

theorem nodup_slots (palette : Palette) : palette.slots.Nodup :=
  List.nodup_range.map fun _ _ h => Slot.mk.inj h

/-- If fewer nodes hold a slot next to `node` than there are slots, one is free. -/
theorem exists_freeSlot? {others : List Nat}
    (hothers : ∀ m, g.Edge node m → (colorAt colors m).isSome = true → m ∈ others)
    (hdegree : g.degreeIn others node < palette.size) :
    ∃ slot, g.freeSlot? palette colors node = some slot := by
  by_contra hnone
  have hheld : palette.slots ⊆ (others.filter (g.adjacent node)).filterMap (colorAt colors) := by
    intro slot hslot
    have hall := List.find?_eq_none.mp (Option.eq_none_iff_forall_ne_some.mpr
      fun s hs => hnone ⟨s, hs⟩) slot hslot
    obtain ⟨m, hm, hcolor⟩ : ∃ m, g.Edge node m ∧ colorAt colors m = some slot := by
      simpa [mem_neighbors] using hall
    refine List.mem_filterMap.mpr ⟨m, List.mem_filter.mpr ⟨?_, hm.2.2⟩, hcolor⟩
    exact hothers m hm (by rw [hcolor]; rfl)
  have hcount : palette.size ≤ g.degreeIn others node := by
    calc
      palette.size = palette.slots.length := by simp [Palette.slots]
      _ ≤ ((others.filter (g.adjacent node)).filterMap (colorAt colors)).length :=
        ((nodup_slots palette).subperm hheld).length_le
      _ ≤ (others.filter (g.adjacent node)).length := List.length_filterMap_le _ _
      _ = g.degreeIn others node := List.countP_eq_length_filter.symm
  exact Nat.not_le.mpr hdegree hcount

/-- After a run that came to its end, selection goes on with one more node. -/
theorem selectFrom_concat_of_free {nodes : List Nat} {slot : Slot}
    (hend : (g.selectFrom palette colors nodes).ending = .complete) (hnode : node < g.size)
    (hfree : g.freeSlot? palette (g.selectFrom palette colors nodes).colors node = some slot) :
    (g.selectFrom palette colors (nodes ++ [node])).ending = .complete ∧
      (g.selectFrom palette colors (nodes ++ [node])).colors =
        (g.selectFrom palette colors nodes).colors.setIfInBounds node (some slot) := by
  induction nodes generalizing colors with
  | nil =>
      rw [List.nil_append, @selectFrom_cons_of_free g palette colors node slot hnode hfree]
      exact ⟨rfl, rfl⟩
  | cons m nodes ih =>
      have hm : m < g.size := by
        refine Nat.lt_of_not_le fun hle => ?_
        simp [selectFrom, Nat.not_lt.mpr hle] at hend
      cases hslot : g.freeSlot? palette colors m with
      | none => simp [selectFrom, hm, hslot] at hend
      | some slot' =>
          rw [selectFrom_cons_of_free hm hslot] at hend hfree
          rw [List.cons_append, selectFrom_cons_of_free hm hslot, selectFrom_cons_of_free hm hslot]
          exact ih hend hfree

/-- Taken in reverse, an order of removal never leaves a node without a slot. -/
theorem Peels.selectFrom_complete (h : g.Peels palette.size left rs [])
    (hleft : ∀ a ∈ left, a < g.size) :
    let s := g.selectFrom palette (Array.replicate g.size none) (rs.map Removal.node).reverse
    s.ending = .complete ∧ s.colors.size = g.size ∧
      ∀ a, (colorAt s.colors a).isSome = true → a ∈ left := by
  generalize hrest : ([] : List Nat) = rest at h
  induction h with
  | done left =>
      refine ⟨rfl, Array.size_replicate, fun a ha => ?_⟩
      simp [selectFrom, colorAt_replicate] at ha
  | @remove left rest rs node hnode hdegree _ ih =>
      obtain ⟨hend, hsize, hcolored⟩ := ih (fun a ha => hleft a (List.mem_of_mem_erase ha)) hrest
      have hsmaller : g.degreeIn (left.erase node) node < palette.size := by
        rw [degreeIn] at hdegree ⊢
        exact Nat.lt_of_le_of_lt (List.erase_sublist.countP_le) hdegree
      obtain ⟨slot, hfree⟩ := exists_freeSlot? (fun m _ hm => hcolored m hm) hsmaller
      obtain ⟨hend', hcolors⟩ := selectFrom_concat_of_free hend (hleft node hnode) hfree
      rw [List.map_cons, List.reverse_cons]
      refine ⟨hend', by rw [hcolors]; simpa using hsize, fun a ha => ?_⟩
      have hin : node < _ := Nat.lt_of_lt_of_eq (hleft node hnode) hsize.symm
      rw [hcolors, colorAt_set _ hin] at ha
      split at ha
      · rename_i heq
        exact heq ▸ hnode
      · exact List.mem_of_mem_erase (hcolored a ha)

theorem select_complete {stack : List Nat} (h : g.simplify palette.size = .ok stack) :
    (g.select palette stack).ending = .complete := by
  obtain ⟨rs, rest, hpeels, ⟨hok, rfl⟩ | ⟨herror, _⟩⟩ := g.peels_simplify palette.size
  · obtain rfl := Except.ok.inj (hok.symm.trans h)
    exact (hpeels.selectFrom_complete fun a ha => List.mem_range.mp ha).1
  · rw [herror] at h
    cases h

end Graph

/-! ## Allocation -/

/-- Allocation succeeds exactly if the graph has no dense set. -/
theorem Program.isSuccess_allocate?_iff {p : Program} {palette : Palette} {g : Graph}
    {status : Status} (h : p.allocate? palette g = some status) :
    status.isSuccess = true ↔ ∀ nodes, ¬ g.Dense palette.size nodes := by
  rw [← Graph.simplify_ok_iff]
  unfold allocate? at h
  cases hstack : g.simplify palette.size with
  | error remaining =>
      rw [hstack] at h
      cases h
      simp [Status.isSuccess]
  | ok stack =>
      simp only [hstack, select?, Graph.select_complete hstack] at h
      obtain ⟨order, _, rfl⟩ := Option.map_eq_some_iff.mp h
      simp [Status.isSuccess]

end RegAlloc
