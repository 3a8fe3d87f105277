import RegAlloc.Proofs.Allocation.Correctness

/-!
# Selection over any stack

Selection does not rely on the stack of a simplification. Over any list of nodes, in any order and
with repetitions, the slots stay proper after every pick. A run either comes to the end of its stack
or stops at a node whose neighbors hold all slots of the palette. The picks of a run say what every
node holds at each point of it.
-/

namespace RegAlloc

namespace Graph

variable {g : Graph} {palette : Palette} {colors : Array (Option Slot)} {nodes stack : List Nat}
  {node : Nat} {slot : Slot}

/-! ## Points of a run -/

/-- Gives their slots to the nodes of some picks, one after the other. -/
def replay (colors : Array (Option Slot)) (picks : List Pick) : Array (Option Slot) :=
  picks.foldl (fun colors pick => colors.setIfInBounds pick.node (some pick.slot)) colors

/-- The slots that the nodes hold after some picks. -/
def colorsAfter (g : Graph) (picks : List Pick) : Array (Option Slot) :=
  replay (Array.replicate g.size none) picks

/-- A run ends with the slots that its picks give. -/
theorem colors_selectFrom (g : Graph) (palette : Palette) (colors : Array (Option Slot))
    (nodes : List Nat) : (g.selectFrom palette colors nodes).colors =
      replay colors (g.selectFrom palette colors nodes).picks := by
  fun_induction selectFrom g palette colors nodes with
  | case1 colors => rfl
  | case2 colors node nodes hnode hfree => rfl
  | case3 colors node nodes hnode slot hfree s ih => exact ih
  | case4 colors node nodes hnode => rfl

theorem colors_select (g : Graph) (palette : Palette) (stack : List Nat) :
    (g.select palette stack).colors = g.colorsAfter (g.select palette stack).picks :=
  g.colors_selectFrom palette _ stack.reverse

/-- Each pick keeps the slots proper, so they are proper after any number of picks. -/
theorem partialColoring_replay (hg : g.Undirected) (h : g.PartialColoring palette colors) :
    ∀ points, points <+: (g.selectFrom palette colors nodes).picks →
      g.PartialColoring palette (replay colors points) := by
  fun_induction selectFrom g palette colors nodes with
  | case1 colors =>
      intro points hpoints
      rwa [List.prefix_nil.mp hpoints]
  | case2 colors node nodes hnode hfree =>
      intro points hpoints
      rwa [List.prefix_nil.mp hpoints]
  | case3 colors node nodes hnode slot hfree s ih =>
      intro points hpoints
      rcases List.prefix_cons_iff.mp hpoints with rfl | ⟨rest, rfl, hrest⟩
      · exact h
      · exact ih (h.pick hg hnode hfree) rest hrest
  | case4 colors node nodes hnode =>
      intro points hpoints
      rwa [List.prefix_nil.mp hpoints]

/-! ## The first pick -/

/-- While no node holds a slot, the first slot is free, whatever the edges are. -/
theorem freeSlot?_blank (g : Graph) (palette : Palette) (n node : Nat) :
    g.freeSlot? palette (Array.replicate n none) node = some ⟨0⟩ := by
  have hsize : palette.names.length ≠ 0 := fun h =>
    palette.valid.ne_nil (List.length_eq_zero_iff.mp h)
  obtain ⟨k, hk⟩ := Nat.exists_eq_succ_of_ne_zero hsize
  simp [freeSlot?, colorAt_replicate, Palette.slots, Palette.size, hk, List.range_succ_eq_map]

theorem head?_picks_select {rest : List Nat} (hnode : node < g.size)
    (hsplit : stack = rest ++ [node]) :
    (g.select palette stack).picks.head? = some ⟨node, ⟨0⟩⟩ := by
  rw [select, hsplit, List.reverse_append, List.reverse_singleton, List.singleton_append,
    selectFrom_cons_of_free hnode (g.freeSlot?_blank palette g.size node)]
  rfl

/-! ## Runs that get stuck -/

/-- No slot is free only if neighbors hold all of them. -/
theorem exists_edge_of_freeSlot?_eq_none (h : g.freeSlot? palette colors node = none)
    (hslot : slot.number ≤ palette.size) : ∃ m, g.Edge node m ∧ colorAt colors m = some slot := by
  have hmem : slot ∈ palette.slots := List.mem_map.mpr ⟨slot.index, List.mem_range.mpr hslot, rfl⟩
  have hheld := List.find?_eq_none.mp h slot hmem
  simpa [mem_neighbors] using hheld

/-- A run that is stuck has made a pick for each node before the one without a free slot. -/
theorem exists_split_of_stuck (h : (g.selectFrom palette colors nodes).ending = .stuck node) :
    (∃ rest, nodes = (g.selectFrom palette colors nodes).picks.map Pick.node ++ node :: rest) ∧
      g.freeSlot? palette (g.selectFrom palette colors nodes).colors node = none := by
  fun_induction selectFrom g palette colors nodes with
  | case1 colors => cases h
  | case2 colors node nodes hnode hfree =>
      cases h
      exact ⟨⟨nodes, rfl⟩, hfree⟩
  | case3 colors first nodes hfirst slot hfree s ih =>
      obtain ⟨⟨rest, hrest⟩, hnone⟩ := ih h
      refine ⟨⟨rest, ?_⟩, hnone⟩
      rw [List.map_cons, List.cons_append, ← hrest]
  | case4 colors node nodes hnode => cases h

/-! ## Runs to the end -/

theorem map_node_picks (h : (g.selectFrom palette colors nodes).ending = .complete) :
    (g.selectFrom palette colors nodes).picks.map Pick.node = nodes := by
  fun_induction selectFrom g palette colors nodes with
  | case1 colors => rfl
  | case2 colors node nodes hnode hfree => cases h
  | case3 colors node nodes hnode slot hfree s ih => rw [List.map_cons, ih h]
  | case4 colors node nodes hnode => cases h

/-- With all nodes on the stack, the slots are listed by node and color the graph. -/
theorem slots_of_complete (hg : g.Undirected) (hstack : ∀ a < g.size, a ∈ stack)
    (hend : (g.select palette stack).ending = .complete) :
    (g.select palette stack).slots.length = g.size ∧
    (∀ slot ∈ (g.select palette stack).slots, slot.number ≤ palette.size) ∧
    (∀ a, (g.select palette stack).slots[a]? = colorAt (g.select palette stack).colors a) ∧
    ∀ a b, g.Edge a b →
      (g.select palette stack).slots[a]? ≠ (g.select palette stack).slots[b]? := by
  have hpartial : g.PartialColoring palette (g.select palette stack).colors :=
    selectFrom_partialColoring hg (g.partialColoring_blank palette)
  have hcolored := isSome_colorAt_select hstack hend
  rw [← hpartial.size_eq] at hcolored
  have hslots := Selection.getElem?_slots hcolored
  refine ⟨(Selection.length_slots hcolored).trans hpartial.size_eq, ?_, hslots, ?_⟩
  · intro slot hslot
    obtain ⟨a, ha⟩ := List.mem_iff_getElem?.mp hslot
    rw [hslots] at ha
    exact of_decide_eq_true (hpartial.inPalette ha)
  · intro a b hedge heq
    obtain ⟨slot, hslot⟩ := Option.isSome_iff_exists.mp (hcolored a (hpartial.size_eq ▸ hedge.1))
    rw [hslots, hslots, hslot] at heq
    exact hpartial.proper hedge hslot heq.symm

end Graph

/-! ## Selection for a program -/

namespace Program

/-- Over any stack of nodes the slots are proper after every pick, the first of which takes the first
slot. Either all of the stack gets slots, and with every node on it these color the graph, or the
selection fails at a node whose neighbors hold every slot of the palette by then. -/
theorem selection_safe_on_any_stack {p : Program} {g : Graph} {stack : List Nat}
    (hg : g.isSymmetric = true) (hsize : g.size = p.registerCount)
    (hstack : ∀ node ∈ stack, node < g.size) (palette : Palette) :
    (∀ points, points <+: (g.select palette stack).picks →
      ∀ a b slot, g.Edge a b → Graph.colorAt (g.colorsAfter points) a = some slot →
        Graph.colorAt (g.colorsAfter points) b ≠ some slot) ∧
    (∀ rest node, stack = rest ++ [node] →
      (g.select palette stack).picks.head? = some ⟨node, ⟨0⟩⟩) ∧
    ((∃ colors, p.select? palette g stack = some (.ok colors) ∧
        (g.select palette stack).picks.map Pick.node = stack.reverse ∧
        ((∀ a < g.size, a ∈ stack) →
          colors.length = g.size ∧
          (∀ slot ∈ colors, 1 ≤ slot.number ∧ slot.number ≤ palette.size) ∧
          (∀ a, colors[a]? =
            Graph.colorAt (g.colorsAfter (g.select palette stack).picks) a) ∧
          ∀ a b, g.Edge a b → colors[a]? ≠ colors[b]?)) ∨
      ∃ node name rest, p.select? palette g stack = some (.error (.coloringFailed name)) ∧
        p.registerName? node = some name ∧
        stack.reverse = (g.select palette stack).picks.map Pick.node ++ node :: rest ∧
        ∀ slot : Slot, slot.number ≤ palette.size → ∃ m, g.Edge node m ∧
          Graph.colorAt (g.colorsAfter (g.select palette stack).picks) m = some slot) := by
  have hundirected := Graph.isSymmetric_iff.mp hg
  have hpoints : ∀ points, points <+: (g.select palette stack).picks →
      g.PartialColoring palette (g.colorsAfter points) :=
    Graph.partialColoring_replay hundirected (g.partialColoring_blank palette)
  refine ⟨fun points hprefix a b slot hedge => (hpoints points hprefix).proper hedge, ?_, ?_⟩
  · intro rest node hsplit
    exact Graph.head?_picks_select (hstack node (by simp [hsplit])) hsplit
  rw [← g.colors_select]
  cases hend : (g.select palette stack).ending with
  | complete =>
      refine Or.inl ⟨_, by rw [select?, hend], Graph.map_node_picks hend, fun hall => ?_⟩
      obtain ⟨hlength, hpalette, hslots, hdiffer⟩ := Graph.slots_of_complete hundirected hall hend
      exact ⟨hlength, fun slot hslot => ⟨Nat.succ_pos _, hpalette slot hslot⟩, hslots, hdiffer⟩
  | stuck node =>
      obtain ⟨⟨rest, hrest⟩, hnone⟩ := Graph.exists_split_of_stuck hend
      have hmem := List.mem_reverse.mp (Graph.mem_of_selectFrom_stuck hend)
      obtain ⟨name, hname⟩ := exists_registerName? (hsize ▸ hstack node hmem)
      refine Or.inr ⟨node, name, rest, by simp [select?, hend, hname], hname, hrest, ?_⟩
      intro slot hslot
      exact Graph.exists_edge_of_freeSlot?_eq_none hnone hslot
  | outside node =>
      refine absurd hend (Graph.selectFrom_inside ?_ node)
      exact fun m hm => hstack m (List.mem_reverse.mp hm)

/-- Three registers that all conflict: a stack with repetitions colors them with four slots, and with
two slots the last one has none left. -/
theorem triangle_safe_on_any_stack :
    let p : Program :=
      { vars := #["r1", "r2", "r3"].mapIdx fun i name => ⟨.register, name, 0, some i⟩
        registers := [0, 1, 2] }
    let g := (Graph.empty 3).joinAll [0, 1, 2]
    (∃ colors, p.select? .standard g [2, 0, 1, 0] = some (.ok colors) ∧ colors.length = 3 ∧
      ∀ a b, g.Edge a b → colors[a]? ≠ colors[b]?) ∧
    ∃ two : Palette, two.size = 2 ∧
      p.select? two g [0, 1, 2] = some (.error (.coloringFailed "r1")) ∧
      ∀ slot : Slot, slot.number ≤ 2 → ∃ m, g.Edge 0 m ∧
        Graph.colorAt (g.select two [0, 1, 2]).colors m = some slot := by
  intro p g
  constructor
  · obtain ⟨_, _, ⟨colors, hcolors, _, hall⟩ | ⟨node, name, rest, hfailed, _⟩⟩ :=
      @selection_safe_on_any_stack p g [2, 0, 1, 0] (by decide) (by decide) (by decide) .standard
    · obtain ⟨hlength, _, _, hdiffer⟩ := hall (by decide)
      exact ⟨colors, hcolors, hlength, hdiffer⟩
    · have hend : (g.select .standard [2, 0, 1, 0]).ending = .complete := by decide
      rw [select?, hend] at hfailed
      cases hfailed
  · let two : Palette := ⟨["t0", "t1"], by decide, by decide, by decide, by decide⟩
    have hend : (g.select two [0, 1, 2]).ending = .stuck 0 := by decide
    have hfailed : p.select? two g [0, 1, 2] = some (.error (.coloringFailed "r1")) := by
      rw [select?, hend]
      rfl
    refine ⟨two, rfl, hfailed, ?_⟩
    obtain ⟨_, _, ⟨colors, hcolors, _⟩ | ⟨node, name, rest, _, _, hsplit, hheld⟩⟩ :=
      @selection_safe_on_any_stack p g [0, 1, 2] (by decide) (by decide) (by decide) two
    · rw [hfailed] at hcolors
      cases hcolors
    · have hpicks : (g.select two [0, 1, 2]).picks.map Pick.node = [2, 1] := by decide
      rw [hpicks] at hsplit
      cases hsplit
      rw [g.colors_select]
      exact hheld

end Program

end RegAlloc
