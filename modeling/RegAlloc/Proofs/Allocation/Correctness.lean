import RegAlloc.Allocation
import RegAlloc.Proofs.Coloring.Correctness

/-!
# Correctness of register allocation

`Graph.ValidColoring` is what `isValidColoring?` decides. An allocation over a graph with one node
for each register variable has an outcome, and a successful one leaves a valid coloring.
-/

namespace RegAlloc

/-- Every register variable has a slot of the palette, and the ends of an edge have different
slots. -/
structure Graph.ValidColoring (g : Graph) (palette : Palette) (slots : List (Option Slot)) :
    Prop where
  inPalette : ∀ x ∈ slots, ∃ s, x = some s ∧ palette.contains s = true
  differ : ∀ {a b : Nat}, g.Edge a b → ∃ s t, slots[a]? = some (some s) ∧
    slots[b]? = some (some t) ∧ s ≠ t

namespace Graph

theorem differ?_eq_some_true {slots : List (Option Slot)} {es : List (Nat × Nat)}
    (h : ∀ e ∈ es, ∃ x y, slots[e.1]? = some x ∧ slots[e.2]? = some y ∧ x ≠ y) :
    differ? slots es = some true := by
  induction es with
  | nil => rfl
  | cons e es ih =>
      obtain ⟨x, y, hx, hy, hne⟩ := h e List.mem_cons_self
      have hrest := ih fun e' he' => h e' (List.mem_cons_of_mem e he')
      simp [differ?, hx, hy, hne, hrest]

theorem ValidColoring.isValidColoring? {g : Graph} {palette : Palette} {slots : List (Option Slot)}
    (h : g.ValidColoring palette slots) : g.isValidColoring? palette slots = some true := by
  have hall : slots.all (fun s => s.any palette.contains) = true := by
    rw [List.all_eq_true]
    intro x hx
    obtain ⟨s, rfl, hs⟩ := h.inPalette x hx
    exact hs
  rw [Graph.isValidColoring?, ite_cond_eq_true _ _ (eq_true hall)]
  apply differ?_eq_some_true
  intro e he
  obtain ⟨s, t, hs, ht, hne⟩ := h.differ (mem_edges.mp he).1
  exact ⟨some s, some t, hs, ht, fun heq => hne (Option.some.inj heq)⟩

end Graph

namespace Program

/-! ## Every allocation comes to an end -/

theorem exists_mapM_registerAt? {p : Program} {stack : List Nat}
    (h : ∀ position ∈ stack, position < p.registerCount) :
    ∃ order, stack.mapM p.registerAt? = some order := by
  induction stack with
  | nil => exact ⟨[], rfl⟩
  | cons position stack ih =>
      obtain ⟨order, horder⟩ := ih fun q hq => h q (List.mem_cons_of_mem position hq)
      have hposition : position < p.registers.length := h position List.mem_cons_self
      have hregister : p.registerAt? position = some p.registers[position] :=
        List.getElem?_eq_getElem hposition
      exact ⟨p.registers[position] :: order, by simp [List.mapM_cons, hregister, horder]⟩

theorem exists_registerName? {p : Program} {position : Nat} (h : position < p.registerCount) :
    ∃ name, p.registerName? position = some name := by
  have hposition : position < p.registers.length := h
  exact ⟨(p.var p.registers[position]).name, by simp [registerName?, registerAt?, hposition]⟩

/-- Over a graph with a node for each register variable, allocation succeeds or says why not. -/
theorem exists_allocate? (p : Program) (palette : Palette) {g : Graph}
    (hsize : g.size = p.registerCount) : ∃ status, p.allocate? palette g = some status := by
  unfold allocate?
  cases hstack : g.simplify palette.size with
  | error remaining => exact ⟨_, rfl⟩
  | ok stack =>
      have hperm := Graph.simplify_perm hstack
      have hlt : ∀ node ∈ stack, node < g.size := fun node hnode =>
        List.mem_range.mp (hperm.mem_iff.mp hnode)
      cases hend : (g.select palette stack).ending with
      | complete =>
          obtain ⟨order, horder⟩ := exists_mapM_registerAt? (p := p) (hsize ▸ hlt)
          exact ⟨.allocated ⟨order, (g.select palette stack).slots⟩,
            by simp [select?, hend, horder]⟩
      | stuck node =>
          have hmem := List.mem_reverse.mp (Graph.mem_of_selectFrom_stuck hend)
          obtain ⟨name, hname⟩ := exists_registerName? (hsize ▸ hlt node hmem)
          exact ⟨.failed (.coloringFailed name), by simp [select?, hend, hname]⟩
      | outside node =>
          refine absurd hend (Graph.selectFrom_inside ?_ node)
          exact fun m hm => hlt m (List.mem_reverse.mp hm)

/-! ## Successful allocations -/

theorem allocate?_eq_allocated {p : Program} {palette : Palette} {g : Graph} {c : Coloring}
    (h : p.allocate? palette g = some (.allocated c)) :
    ∃ stack, g.simplify palette.size = .ok stack ∧
      (g.select palette stack).ending = .complete ∧ c.colors = (g.select palette stack).slots := by
  unfold allocate? at h
  split at h
  · cases h
  · rename_i stack hstack
    refine ⟨stack, hstack, ?_⟩
    split at h
    · cases h
    · cases h
    · rename_i colors hselect
      obtain ⟨order, _, heq⟩ := Option.map_eq_some_iff.mp h
      cases heq
      simp only [select?] at hselect
      split at hselect
      · rename_i hend
        cases hselect
        exact ⟨hend, rfl⟩
      · obtain ⟨name, _, heq⟩ := Option.map_eq_some_iff.mp hselect
        cases heq
      · cases hselect

/-- A successful allocation colors the graph. -/
theorem allocate?_validColoring {p : Program} {palette : Palette} {g : Graph} {c : Coloring}
    (hg : g.Undirected) (hsize : g.size = p.registerCount)
    (h : p.allocate? palette g = some (.allocated c)) :
    g.ValidColoring palette ((Status.allocated c).slots p.registerCount) := by
  obtain ⟨stack, hstack, hend, hcolors⟩ := allocate?_eq_allocated h
  have hperm := Graph.simplify_perm hstack
  have hpartial : g.PartialColoring palette (g.select palette stack).colors :=
    Graph.selectFrom_partialColoring hg (g.partialColoring_blank palette)
  have hslots : ∀ a < g.size, ((Status.allocated c).slots p.registerCount)[a]? =
      some (Graph.colorAt (g.select palette stack).colors a) := by
    intro a ha
    rw [← Graph.getElem?_slots_select hg hperm hend a, ← hcolors]
    simp [Status.slots, ← hsize, ha]
  have hcolored : ∀ a < g.size, ∃ s, Graph.colorAt (g.select palette stack).colors a = some s := by
    intro a ha
    apply Option.isSome_iff_exists.mp
    apply Graph.isSome_colorAt_select _ hend a ha
    intro b hb
    exact hperm.mem_iff.mpr (List.mem_range.mpr hb)
  refine ⟨?_, ?_⟩
  · intro x hx
    obtain ⟨a, ha, rfl⟩ := List.mem_map.mp hx
    rw [List.mem_range, ← hsize] at ha
    obtain ⟨s, hs⟩ := hcolored a ha
    refine ⟨s, ?_, hpartial.inPalette hs⟩
    rw [hcolors, Graph.getElem?_slots_select hg hperm hend, hs]
  · intro a b hedge
    obtain ⟨s, hs⟩ := hcolored a hedge.1
    obtain ⟨t, ht⟩ := hcolored b hedge.2.1
    refine ⟨s, t, by rw [hslots a hedge.1, hs], by rw [hslots b hedge.2.1, ht], ?_⟩
    rintro rfl
    exact hpartial.proper hedge hs ht

end Program

end RegAlloc
