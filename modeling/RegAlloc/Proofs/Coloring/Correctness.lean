import RegAlloc.Coloring
import RegAlloc.Proofs.Graph.Edges

/-!
# Correctness of graph coloring

Simplification that comes to its end removes every node once. Selection keeps the slots given so far
proper, whatever the stack is, and gives a slot to every node of a stack that it goes through.
-/

namespace RegAlloc

/-! ## Simplification removes every node once -/

theorem Removal.mem_of_foldl_better {k : Nat} {left : List Removal} {best : Option Removal}
    {r : Removal} (h : left.foldl (better k) best = some r) : r ∈ left ∨ best = some r := by
  induction left generalizing best with
  | nil => exact Or.inr h
  | cons q left ih =>
      rcases ih h with hmem | hbest
      · exact Or.inl (List.mem_cons_of_mem q hmem)
      · unfold better at hbest
        split at hbest
        · obtain rfl := Option.some.inj hbest
          exact Or.inl List.mem_cons_self
        · exact Or.inr hbest

theorem Removal.mem_of_candidate? {k : Nat} {left : List Removal} {r : Removal}
    (h : candidate? k left = some r) : r ∈ left := by
  rcases mem_of_foldl_better h with hmem | hnone
  · exact hmem
  · cases hnone

namespace Graph

theorem map_node_without (g : Graph) (node : Nat) {left : List Removal}
    (hdistinct : (left.map Removal.node).Nodup) :
    (g.without node left).map Removal.node = (left.map Removal.node).erase node := by
  have hkeep : Removal.node ∘ (fun r : Removal =>
      if g.adjacent r.node node then { r with degree := r.degree - 1 } else r) = Removal.node := by
    funext r
    simp only [Function.comp_apply]
    split <;> rfl
  rw [without, List.map_map, hkeep, hdistinct.erase_eq_filter, List.filter_map]
  rfl

theorem simplifyFrom_perm (g : Graph) (k n : Nat) (left : List Removal) (hlen : left.length = n)
    (hdistinct : (left.map Removal.node).Nodup) (hend : (g.simplifyFrom k n left).2 = none) :
    ((g.simplifyFrom k n left).1.map Removal.node).Perm (left.map Removal.node) := by
  induction n generalizing left with
  | zero =>
      rw [List.length_eq_zero_iff] at hlen
      subst hlen
      exact List.Perm.refl _
  | succ n ih =>
      rw [simplifyFrom] at hend ⊢
      cases hbest : Removal.candidate? k left with
      | none => simp [hbest] at hend
      | some r =>
          simp only [hbest] at hend ⊢
          have hmem : r.node ∈ left.map Removal.node :=
            List.mem_map_of_mem (Removal.mem_of_candidate? hbest)
          have hrest := g.map_node_without r.node hdistinct
          have hlen' : (g.without r.node left).length = n := by
            have hcount := congrArg List.length hrest
            rw [List.length_map, List.length_erase_of_mem hmem, List.length_map] at hcount
            omega
          have hperm := ih _ hlen' (hrest ▸ hdistinct.erase r.node) hend
          rw [hrest] at hperm
          exact (hperm.cons r.node).trans (List.perm_cons_erase hmem).symm

theorem map_node_tally (g : Graph) (left : List Nat) : (g.tally left).map Removal.node = left := by
  simp [tally, Function.comp_def]

/-- A simplification that comes to its end orders the nodes of the graph. -/
theorem simplify_perm {g : Graph} {k : Nat} {stack : List Nat} (h : g.simplify k = .ok stack) :
    stack.Perm (List.range g.size) := by
  have hnodes := g.map_node_tally (List.range g.size)
  have hperm := g.simplifyFrom_perm k g.size (g.tally (List.range g.size)) (by simp [tally])
    (by rw [hnodes]; exact List.nodup_range)
  rw [hnodes] at hperm
  unfold simplify simplifyTrace at h
  split at h
  · rename_i rs hrun
    rw [hrun] at hperm
    cases h
    exact hperm rfl
  · cases h

/-! ## Selection keeps the slots proper -/

/-- The slots that some nodes hold: all of the palette, and different at the ends of an edge. -/
structure PartialColoring (g : Graph) (palette : Palette) (colors : Array (Option Slot)) :
    Prop where
  size_eq : colors.size = g.size
  inPalette : ∀ {a : Nat} {s : Slot}, colorAt colors a = some s → palette.contains s = true
  proper : ∀ {a b : Nat} {s : Slot}, g.Edge a b → colorAt colors a = some s →
    colorAt colors b ≠ some s

theorem colorAt_replicate (n a : Nat) : colorAt (Array.replicate n none) a = none := by
  simp only [colorAt, Array.getD_eq_getD_getElem?, Array.getElem?_replicate]
  split <;> rfl

theorem colorAt_set (colors : Array (Option Slot)) {node : Nat} (hnode : node < colors.size)
    (s : Slot) (a : Nat) :
    colorAt (colors.setIfInBounds node (some s)) a =
      if a = node then some s else colorAt colors a := by
  simp only [colorAt, Array.getD_eq_getD_getElem?, Array.getElem?_setIfInBounds]
  by_cases h : a = node
  · subst h
    simp [hnode]
  · simp [h, Ne.symm h]

theorem partialColoring_blank (g : Graph) (palette : Palette) :
    g.PartialColoring palette (Array.replicate g.size none) where
  size_eq := Array.size_replicate
  inPalette h := by simp [colorAt_replicate] at h
  proper _ h := by simp [colorAt_replicate] at h

theorem freeSlot?_spec {g : Graph} {palette : Palette} {colors : Array (Option Slot)} {node : Nat}
    {s : Slot} (h : g.freeSlot? palette colors node = some s) :
    palette.contains s = true ∧ ∀ m, g.Edge node m → colorAt colors m ≠ some s := by
  unfold freeSlot? at h
  constructor
  · have hmem := List.mem_of_find?_eq_some h
    simp only [Palette.slots, List.mem_map, List.mem_range] at hmem
    obtain ⟨i, hi, rfl⟩ := hmem
    simpa [Palette.contains] using hi
  · intro m hedge
    have hall := List.find?_some h
    have hfree := List.all_eq_true.mp hall m (mem_neighbors.mpr hedge)
    simpa using hfree

/-- Giving a free slot to a node keeps the slots proper. -/
theorem PartialColoring.pick {g : Graph} {palette : Palette} {colors : Array (Option Slot)}
    (h : g.PartialColoring palette colors) (hg : g.Undirected) {node : Nat} {slot : Slot}
    (hnode : node < g.size) (hfree : g.freeSlot? palette colors node = some slot) :
    g.PartialColoring palette (colors.setIfInBounds node (some slot)) := by
  obtain ⟨hslot, hneighbors⟩ := freeSlot?_spec hfree
  have hset := colorAt_set colors (h.size_eq ▸ hnode) slot
  refine ⟨by simpa using h.size_eq, ?_, ?_⟩
  · intro a s ha
    rw [hset] at ha
    split at ha
    · cases ha
      exact hslot
    · exact h.inPalette ha
  · intro a b s hedge ha hb
    rw [hset] at ha hb
    split at ha
    · rename_i haNode
      subst haNode
      split at hb
      · rename_i hbNode
        subst hbNode
        exact hg.irrefl _ hedge
      · cases ha
        exact hneighbors b hedge hb
    · split at hb
      · rename_i hbNode
        subst hbNode
        cases hb
        exact hneighbors a (hg.symm hedge) ha
      · exact h.proper hedge ha hb

theorem selectFrom_cons_of_free {g : Graph} {palette : Palette} {colors : Array (Option Slot)}
    {node : Nat} {slot : Slot} (hnode : node < g.size)
    (hfree : g.freeSlot? palette colors node = some slot) (nodes : List Nat) :
    g.selectFrom palette colors (node :: nodes) =
      let s := g.selectFrom palette (colors.setIfInBounds node (some slot)) nodes
      { s with picks := ⟨node, slot⟩ :: s.picks } := by
  rw [selectFrom]
  simp only [hnode, hfree, ite_true]

theorem selectFrom_partialColoring {g : Graph} {palette : Palette} (hg : g.Undirected)
    {colors : Array (Option Slot)} {nodes : List Nat} (h : g.PartialColoring palette colors) :
    g.PartialColoring palette (g.selectFrom palette colors nodes).colors := by
  induction nodes generalizing colors with
  | nil => exact h
  | cons node nodes ih =>
      by_cases hnode : node < g.size
      · cases hfree : g.freeSlot? palette colors node with
        | none => simpa [selectFrom, hnode, hfree] using h
        | some slot =>
            rw [selectFrom_cons_of_free hnode hfree]
            exact ih (h.pick hg hnode hfree)
      · simpa [selectFrom, hnode] using h

/-! ## Selection that goes through colors its whole stack -/

theorem colored_of_selectFrom {g : Graph} {palette : Palette} {colors : Array (Option Slot)}
    {nodes : List Nat} {a : Nat} (hsize : colors.size = g.size)
    (hend : (g.selectFrom palette colors nodes).ending = .complete)
    (h : a ∈ nodes ∨ (colorAt colors a).isSome) :
    (colorAt (g.selectFrom palette colors nodes).colors a).isSome := by
  induction nodes generalizing colors with
  | nil => simpa [selectFrom] using h
  | cons node nodes ih =>
      have hnode : node < g.size := by
        refine Nat.lt_of_not_le fun hle => ?_
        simp [selectFrom, Nat.not_lt.mpr hle] at hend
      cases hfree : g.freeSlot? palette colors node with
      | none => simp [selectFrom, hnode, hfree] at hend
      | some slot =>
          rw [selectFrom_cons_of_free hnode hfree] at hend ⊢
          have hset := colorAt_set colors (hsize ▸ hnode) slot a
          refine ih (by simpa using hsize) hend ?_
          by_cases ha : a = node
          · right
            rw [hset, ite_cond_eq_true _ _ (eq_true ha)]
            rfl
          · rw [hset, ite_cond_eq_false _ _ (eq_false ha)]
            exact h.imp_left fun hmem => (List.mem_cons.mp hmem).resolve_left ha

theorem mem_of_selectFrom_stuck {g : Graph} {palette : Palette} {colors : Array (Option Slot)}
    {nodes : List Nat} {a : Nat} (h : (g.selectFrom palette colors nodes).ending = .stuck a) :
    a ∈ nodes := by
  induction nodes generalizing colors with
  | nil => cases h
  | cons node nodes ih =>
      by_cases hnode : node < g.size
      · cases hfree : g.freeSlot? palette colors node with
        | none =>
            simp only [selectFrom, hnode, hfree, ite_true, Ending.stuck.injEq] at h
            exact h ▸ List.mem_cons_self
        | some slot =>
            rw [selectFrom_cons_of_free hnode hfree] at h
            exact List.mem_cons_of_mem node (ih h)
      · simp [selectFrom, hnode] at h

theorem selectFrom_inside {g : Graph} {palette : Palette} {colors : Array (Option Slot)}
    {nodes : List Nat} (hnodes : ∀ node ∈ nodes, node < g.size) (a : Nat) :
    (g.selectFrom palette colors nodes).ending ≠ .outside a := by
  induction nodes generalizing colors with
  | nil => intro h; cases h
  | cons node nodes ih =>
      have hnode := hnodes node List.mem_cons_self
      cases hfree : g.freeSlot? palette colors node with
      | none => simp [selectFrom, hnode, hfree]
      | some slot =>
          rw [selectFrom_cons_of_free hnode hfree]
          exact ih fun m hm => hnodes m (List.mem_cons_of_mem node hm)

/-- A list of options without `none` keeps its entries when they are collected. -/
theorem getElem?_filterMap_id {α : Type} {xs : List (Option α)} (h : ∀ x ∈ xs, x.isSome) (i : Nat) :
    (xs.filterMap id)[i]? = xs[i]?.join := by
  induction xs generalizing i with
  | nil => rfl
  | cons x xs ih =>
      obtain ⟨y, rfl⟩ := Option.isSome_iff_exists.mp (h x List.mem_cons_self)
      have hrest := ih (fun z hz => h z (List.mem_cons_of_mem _ hz))
      cases i with
      | zero => rfl
      | succ i => simpa using hrest i

end Graph

/-! ## The list of slots -/

section Slots

variable {s : Selection} (h : ∀ a < s.colors.size, (Graph.colorAt s.colors a).isSome)

include h

theorem Selection.isSome_of_mem_colors : ∀ x ∈ s.colors.toList, x.isSome := by
  intro x hx
  obtain ⟨a, ha, rfl⟩ := List.mem_iff_getElem.mp hx
  have ha' : a < s.colors.size := by simpa using ha
  simpa [Graph.colorAt, Array.getD, ha'] using h a ha'

/-- Where every node holds a slot, the list has as many as there are nodes. -/
theorem Selection.length_slots : s.slots.length = s.colors.size := by
  have hlength := List.filterMap_length_eq_length (f := id).mpr (isSome_of_mem_colors h)
  rwa [Array.length_toList] at hlength

/-- Where every node holds a slot, it is listed at the place of the node. -/
theorem Selection.getElem?_slots (a : Nat) : s.slots[a]? = Graph.colorAt s.colors a := by
  rw [slots, Graph.getElem?_filterMap_id (isSome_of_mem_colors h)]
  simp only [Graph.colorAt, Array.getD_eq_getD_getElem?, Array.getElem?_toList]
  cases s.colors[a]? <;> rfl

end Slots

namespace Graph

theorem isSome_colorAt_select {g : Graph} {palette : Palette} {stack : List Nat}
    (hstack : ∀ a < g.size, a ∈ stack) (hend : (g.select palette stack).ending = .complete) :
    ∀ a < g.size, (colorAt (g.select palette stack).colors a).isSome := by
  intro a ha
  apply colored_of_selectFrom Array.size_replicate hend
  exact Or.inl (List.mem_reverse.mpr (hstack a ha))

/-- Once selection has gone through a stack of all nodes, every node has its slot in the list. -/
theorem getElem?_slots_select {g : Graph} {palette : Palette} {stack : List Nat}
    (hg : g.Undirected) (hstack : stack.Perm (List.range g.size))
    (hend : (g.select palette stack).ending = .complete) (a : Nat) :
    (g.select palette stack).slots[a]? = colorAt (g.select palette stack).colors a := by
  have hpartial : g.PartialColoring palette (g.select palette stack).colors :=
    selectFrom_partialColoring hg (g.partialColoring_blank palette)
  apply Selection.getElem?_slots
  rw [hpartial.size_eq]
  apply isSome_colorAt_select _ hend
  intro b hb
  exact hstack.mem_iff.mpr (List.mem_range.mpr hb)

end Graph

end RegAlloc
