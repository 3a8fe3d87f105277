import RegAlloc.Proofs.Allocation.Correctness
import RegAlloc.Proofs.Safety.Analysis

/-!
# Accesses of the allocation

Simplification marks the removed nodes in an array, selection keeps the slots in another; both read
rows of the matrix. Positions of the graph lead to register variables and from there to variables.
-/

namespace RegAlloc

namespace Checked

/-! ## Simplification -/

def isLeft (removed : Array Bool) (node : Nat) : Option Bool := (removed[node]?).map not

/-- Number of neighbors of `node` that are left. -/
def degree (g : Graph) (removed : Array Bool) (node : Nat) : Option Nat := do
  let row ← g.neighbors? node
  let left ← row.filterM (isLeft removed)
  return left.length

/-- The nodes that are left, each with its degree. -/
def tally (g : Graph) (removed : Array Bool) : Option (List Removal) := do
  let left ← (List.range g.size).filterM (isLeft removed)
  left.mapM fun node => (degree g removed node).map (Removal.mk node)

def simplifyFrom (g : Graph) (k : Nat) : Nat → Array Bool → Checked Nat (List Nat)
  | 0, _ => return []
  | n + 1, removed => do
    let left ← tally g removed
    match Removal.candidate? k left with
    | none => throw (n + 1)
    | some r => do
      let _ ← isLeft removed r.node
      let stack ← simplifyFrom g k n (removed.setIfInBounds r.node true)
      return r.node :: stack

def simplify (g : Graph) (k : Nat) : Checked Nat (List Nat) :=
  simplifyFrom g k g.size (Array.replicate g.size false)

/-! ## Selection -/

def color? (colors : Array (Option Slot)) (node : Nat) : Option (Option Slot) := colors[node]?

def isFree (g : Graph) (colors : Array (Option Slot)) (node : Nat) (s : Slot) : Option Bool := do
  let row ← g.neighbors? node
  row.allM fun m => (color? colors m).map (· != some s)

def freeSlot (g : Graph) (palette : Palette) (colors : Array (Option Slot)) (node : Nat) :
    Option (Option Slot) :=
  palette.slots.findM? (isFree g colors node)

/-- The register variable at a position. -/
def registerVar (p : Program) (position : Nat) : Option Variable := do
  let v ← p.registerAt? position
  p.var? v

def selectFrom (limit : Level) (p : Program) (palette : Palette) (g : Graph) :
    Array (Option Slot) → List Nat → Checked AllocError (Array (Option Slot))
  | colors, [] => return colors
  | colors, node :: nodes => do
    match ← freeSlot g palette colors node with
    | none => do
      let v ← registerVar p node
      throw (.coloringFailed v.name)
    | some slot => do
      let _ ← logged .trace limit ((registerVar p node).map fun _ => ())
      let _ ← color? colors node
      selectFrom limit p palette g (colors.setIfInBounds node (some slot)) nodes

def select (limit : Level) (p : Program) (palette : Palette) (g : Graph) (stack : List Nat) :
    Checked AllocError (List Slot) := do
  let colors ← selectFrom limit p palette g (Array.replicate g.size none) stack.reverse
  return colors.toList.filterMap id

/-! ## Allocation -/

/-- Writes the slots down at the register variables of their positions. -/
def assign (p : Program) (stack : List Nat) (colors : List Slot) : Option Coloring := do
  let _ ← (List.range colors.length).mapM (registerVar p)
  let order ← stack.mapM p.registerAt?
  return ⟨order, colors⟩

def coloring (limit : Level) (p : Program) (palette : Palette) (g : Graph) :
    Checked AllocError Coloring := do
  let stack ← ExceptT.adapt (.insufficientRegisters · palette.size) (simplify g palette.size)
  let colors ← select limit p palette g stack
  liftM (assign p stack colors)

def statusOf : Except AllocError Coloring → Status
  | .error e => .failed e
  | .ok c => .allocated c

def allocate (limit : Level) (p : Program) (palette : Palette) (g : Graph) : Option Status :=
  (coloring limit p palette g).run.map statusOf

/-- The validity check, which looks up all register variables and reads all rows of the graph. -/
def isValidColoring (a : Annotated) (palette : Palette) (g : Graph) : Option Bool := do
  let _ ← a.program.registers.mapM a.program.var?
  let _ ← (List.range g.size).mapM g.neighbors?
  a.isValidColoring? palette g

/-! ## Simplification is safe -/

section Simplify

variable {g : Graph} {removed : Array Bool}

/-- Whether a node was not removed. -/
def left (removed : Array Bool) (node : Nat) : Bool := !removed.getD node true

theorem isLeft_eq_some {node : Nat} (h : node < removed.size) :
    isLeft removed node = some (left removed node) := by
  simp [isLeft, left, h]

theorem degree_eq_some (hsize : removed.size = g.size) {node : Nat} (h : node < g.size) :
    degree g removed node =
      some (g.degreeIn ((List.range g.size).filter (left removed)) node) := by
  have hrow : (g.neighbors node).filterM (isLeft removed) =
      some ((g.neighbors node).filter (left removed)) := by
    refine filterM_eq_some fun m hm => isLeft_eq_some ?_
    rw [hsize]
    exact (Graph.mem_neighbors.mp hm).2.1
  rw [degree, Graph.neighbors?_eq_some h, Option.bind_eq_bind, Option.bind_some, hrow]
  simp only [Option.bind_some, Option.pure_def, Graph.neighbors, Graph.degreeIn,
    List.countP_filter, ← List.countP_eq_length_filter, Bool.and_comm]

theorem tally_eq_some (hsize : removed.size = g.size) :
    tally g removed = some (g.tally ((List.range g.size).filter (left removed))) := by
  have hleft : (List.range g.size).filterM (isLeft removed) =
      some ((List.range g.size).filter (left removed)) :=
    filterM_eq_some fun m hm => isLeft_eq_some (hsize ▸ List.mem_range.mp hm)
  rw [tally, hleft]
  refine mapM_eq_some fun node hnode => ?_
  rw [degree_eq_some hsize (List.mem_range.mp (List.mem_of_mem_filter hnode))]
  rfl

/-- Removing a node takes it out of the nodes that are left. -/
theorem filter_left_set (hsize : removed.size = g.size) {node : Nat}
    (h : node ∈ (List.range g.size).filter (left removed)) :
    (List.range g.size).filter (left (removed.setIfInBounds node true)) =
      ((List.range g.size).filter (left removed)).erase node := by
  have hnode : node < removed.size := hsize ▸ List.mem_range.mp (List.mem_of_mem_filter h)
  rw [(List.nodup_range.filter _).erase_eq_filter, List.filter_filter]
  refine List.filter_congr fun m _ => ?_
  by_cases heq : m = node
  · simp [left, heq, hnode]
  · simp [left, heq, Ne.symm heq]

/-- The order of the removals, or the number of nodes that are stuck. -/
def outcome : List Removal × Option Nat → Except Nat (List Nat)
  | (rs, none) => .ok (rs.map Removal.node)
  | (_, some remaining) => .error remaining

theorem outcome_cons (r : Removal) (run : List Removal × Option Nat) :
    outcome (r :: run.1, run.2) = (outcome run).map (r.node :: ·) := by
  obtain ⟨rs, _ | remaining⟩ := run <;> rfl

theorem simplifyFrom_follows (k n : Nat) (hsize : removed.size = g.size) :
    Follows Eq (simplifyFrom g k n removed)
      (outcome (g.simplifyFrom k n (g.tally ((List.range g.size).filter (left removed))))) := by
  -- the marks stand for the nodes left, and removing one keeps the degrees of the others right
  induction n generalizing removed with
  | zero => exact .ok rfl
  | succ n ih =>
      refine .access (tally_eq_some hsize) ?_
      rw [Graph.simplifyFrom]
      cases hbest : Removal.candidate? k _ with
      | none => exact .error
      | some r =>
          have hmem : r.node ∈ (List.range g.size).filter (left removed) := by
            rw [← g.map_node_tally ((List.range g.size).filter (left removed))]
            exact List.mem_map_of_mem (Removal.mem_of_candidate? hbest)
          have hnode := List.mem_range.mp (List.mem_of_mem_filter hmem)
          refine .access (isLeft_eq_some (hsize ▸ hnode)) ?_
          have hrest := @ih (removed.setIfInBounds r.node true) (by simpa using hsize)
          rw [filter_left_set hsize hmem, ← g.without_tally (List.nodup_range.filter _) hmem]
            at hrest
          dsimp only
          rw [outcome_cons]
          refine hrest.bind_map ?_
          rintro stack _ _ rfl
          exact .ok rfl

theorem simplify_follows (g : Graph) (k : Nat) : Follows Eq (simplify g k) (g.simplify k) := by
  have hall : (List.range g.size).filter (left (Array.replicate g.size false)) =
      List.range g.size := by
    rw [List.filter_eq_self]
    intro m hm
    simp [left, List.mem_range.mp hm]
  have hrun := @simplifyFrom_follows g (Array.replicate g.size false) k g.size Array.size_replicate
  rw [hall] at hrun
  have heq : g.simplify k = outcome (g.simplifyTrace k) := by
    unfold Graph.simplify
    split <;> rename_i h <;> rw [h] <;> rfl
  rw [heq]
  exact hrun

end Simplify

/-! ## Selection is safe -/

section Select

variable {p : Program} {g : Graph} {colors : Array (Option Slot)}

theorem color?_eq_some {node : Nat} (h : node < colors.size) :
    color? colors node = some (Graph.colorAt colors node) := by
  simp [color?, Graph.colorAt, h]

theorem freeSlot_eq_some (palette : Palette) (hcolors : colors.size = g.size) {node : Nat}
    (h : node < g.size) :
    freeSlot g palette colors node = some (g.freeSlot? palette colors node) := by
  refine findM?_eq_some fun s _ => ?_
  rw [isFree, Graph.neighbors?_eq_some h]
  refine allM_eq_some fun m hm => ?_
  rw [color?_eq_some (hcolors ▸ (Graph.mem_neighbors.mp hm).2.1)]
  rfl

theorem exists_registerVar (h : p.Indexed) {position : Nat} (hlt : position < p.registerCount) :
    ∃ v, p.registerAt? position = some v ∧ registerVar p position = some (p.var v) := by
  have hget : p.registerAt? position = some (p.registers.get ⟨position, hlt⟩) :=
    List.getElem?_eq_getElem hlt
  refine ⟨_, hget, ?_⟩
  rw [registerVar, hget]
  exact Program.var?_eq_some (h.register (List.get_mem p.registers ⟨position, hlt⟩))

/-- The slots that a selection gave, or the variable on which it got stuck. -/
def ended (p : Program) (s : Selection) : Option (Except AllocError (Array (Option Slot))) :=
  match s.ending with
  | .complete => some (.ok s.colors)
  | .stuck node => (p.registerName? node).map fun name => .error (.coloringFailed name)
  | .outside _ => none

theorem selectFrom_follows (h : p.Indexed) (hsize : g.size = p.registerCount) (limit : Level)
    (palette : Palette) (hcolors : colors.size = g.size) {nodes : List Nat}
    (hnodes : ∀ m ∈ nodes, m < g.size) :
    ∃ r, ended p (g.selectFrom palette colors nodes) = some r ∧
      Follows Eq (selectFrom limit p palette g colors nodes) r := by
  induction nodes generalizing colors with
  | nil => exact ⟨.ok colors, rfl, .ok rfl⟩
  | cons node nodes ih =>
      rw [List.forall_mem_cons] at hnodes
      obtain ⟨hnode, hrest⟩ := hnodes
      obtain ⟨v, hregister, hvar⟩ := exists_registerVar h (hsize ▸ hnode)
      have hfree := freeSlot_eq_some palette hcolors hnode
      cases hslot : g.freeSlot? palette colors node with
      | none =>
          rw [hslot] at hfree
          refine ⟨.error (.coloringFailed (p.var v).name), ?_, .access hfree (.access hvar .error)⟩
          simp [Graph.selectFrom, hnode, hslot, ended, Program.registerName?, hregister]
      | some slot =>
          rw [hslot] at hfree
          obtain ⟨r, hended, hfollows⟩ := @ih (colors.setIfInBounds node (some slot))
            (by simpa using hcolors) hrest
          refine ⟨r, ?_, .access hfree (.access (logged_eq_some ?_) (.access
            (color?_eq_some (hcolors ▸ hnode)) hfollows))⟩
          · rw [Graph.selectFrom_cons_of_free hnode hslot]
            exact hended
          · rw [hvar]
            rfl

theorem select?_eq_map_ended (p : Program) (palette : Palette) (g : Graph) (stack : List Nat) :
    p.select? palette g stack = (ended p (g.select palette stack)).map
      (Except.map fun colors => colors.toList.filterMap id) := by
  dsimp only [Program.select?, ended]
  cases (g.select palette stack).ending with
  | complete => rfl
  | stuck node => simp [Function.comp_def, Except.map]
  | outside node => rfl

theorem select_follows (h : p.Indexed) (hsize : g.size = p.registerCount) (limit : Level)
    (palette : Palette) {stack : List Nat} (hstack : ∀ m ∈ stack, m < g.size) :
    ∃ r, p.select? palette g stack = some r ∧ Follows Eq (select limit p palette g stack) r := by
  have hnodes : ∀ m ∈ stack.reverse, m < g.size := fun m hm => hstack m (List.mem_reverse.mp hm)
  obtain ⟨r, hended, hfollows⟩ :=
    selectFrom_follows h hsize limit palette Array.size_replicate hnodes
  refine ⟨r.map fun colors => colors.toList.filterMap id, ?_, hfollows.bind_map ?_⟩
  · rw [select?_eq_map_ended, Graph.select, hended]
    rfl
  · rintro colors _ _ rfl
    exact .ok rfl

theorem size_selectFrom (palette : Palette) (colors : Array (Option Slot)) (nodes : List Nat) :
    (g.selectFrom palette colors nodes).colors.size = colors.size := by
  induction nodes generalizing colors with
  | nil => rfl
  | cons node nodes ih =>
      rw [Graph.selectFrom]
      split
      · split
        · rfl
        · exact (ih _).trans Array.size_setIfInBounds
      · rfl

/-- There are no more slots than nodes. -/
theorem length_le_of_select? {palette : Palette} {stack : List Nat} {slots : List Slot}
    (h : p.select? palette g stack = some (.ok slots)) : slots.length ≤ g.size := by
  have hsize : (g.select palette stack).colors.size = g.size :=
    (size_selectFrom palette _ _).trans Array.size_replicate
  have hlength : (g.select palette stack).slots.length ≤ g.size := by
    rw [← hsize, ← Array.length_toList]
    exact List.length_filterMap_le id _
  dsimp only [Program.select?] at h
  split at h
  · cases h
    exact hlength
  · obtain ⟨name, _, hname⟩ := Option.map_eq_some_iff.mp h
    cases hname
  · cases h

end Select

/-! ## Allocation is safe -/

section Allocate

variable {p : Program} {g : Graph}

theorem assign_eq_some (h : p.Indexed) {stack : List Nat} {colors : List Slot}
    (hstack : ∀ m ∈ stack, m < p.registerCount) (hcolors : colors.length ≤ p.registerCount) :
    ∃ order, stack.mapM p.registerAt? = some order ∧
      assign p stack colors = some ⟨order, colors⟩ := by
  obtain ⟨order, horder⟩ := Program.exists_mapM_registerAt? hstack
  obtain ⟨vars, hvars⟩ : ∃ vars, (List.range colors.length).mapM (registerVar p) = some vars := by
    refine exists_mapM_eq_some fun position hposition => ?_
    have hlt := Nat.lt_of_lt_of_le (List.mem_range.mp hposition) hcolors
    obtain ⟨v, _, hvar⟩ := exists_registerVar h hlt
    exact ⟨p.var v, hvar⟩
  refine ⟨order, horder, ?_⟩
  rw [assign, hvars, horder]
  rfl

theorem coloring_follows (h : p.Indexed) (hsize : g.size = p.registerCount) (limit : Level)
    (palette : Palette) : ∃ r, p.allocate? palette g = some (statusOf r) ∧
      Follows Eq (coloring limit p palette g) r := by
  have hsimplify := (simplify_follows g palette.size).adapt
    (f := (AllocError.insufficientRegisters · palette.size))
  unfold Program.allocate?
  cases hstack : g.simplify palette.size with
  | error remaining =>
      rw [hstack] at hsimplify
      exact ⟨.error (.insufficientRegisters remaining palette.size), rfl, hsimplify.bind_error⟩
  | ok stack =>
      rw [hstack] at hsimplify
      have hlt : ∀ m ∈ stack, m < g.size := fun m hm =>
        List.mem_range.mp ((Graph.simplify_perm hstack).mem_iff.mp hm)
      obtain ⟨r, hselect, hfollows⟩ := select_follows h hsize limit palette hlt
      dsimp only
      rw [hselect]
      cases r with
      | error e =>
          refine ⟨.error e, rfl, hsimplify.bind_ok ?_⟩
          rintro _ rfl
          exact hfollows.bind_error
      | ok colors =>
          have hlength := length_le_of_select? hselect
          obtain ⟨order, horder, hassign⟩ := assign_eq_some h (hsize ▸ hlt) (hsize ▸ hlength)
          refine ⟨.ok ⟨order, colors⟩, by rw [horder]; rfl, hsimplify.bind_ok ?_⟩
          rintro _ rfl
          refine hfollows.bind_ok ?_
          rintro _ rfl
          exact .last_access hassign rfl

/-- Allocation over a graph with a node for each register variable makes no access out of range. -/
theorem allocate_eq_some (h : p.Indexed) (hsize : g.size = p.registerCount) (limit : Level)
    (palette : Palette) : ∃ status, p.allocate? palette g = some status ∧
      allocate limit p palette g = some status := by
  obtain ⟨r, hallocate, hfollows⟩ := coloring_follows h hsize limit palette
  refine ⟨statusOf r, hallocate, ?_⟩
  rw [allocate, hfollows.run_eq]
  rfl

theorem exists_differ? {slots : List (Option Slot)} {edges : List (Nat × Nat)}
    (h : ∀ e ∈ edges, e.1 < slots.length ∧ e.2 < slots.length) :
    ∃ valid, Graph.differ? slots edges = some valid := by
  induction edges with
  | nil => exact ⟨true, rfl⟩
  | cons e edges ih =>
      rw [List.forall_mem_cons] at h
      obtain ⟨valid, hvalid⟩ := ih h.2
      obtain ⟨a, b⟩ := e
      by_cases heq : slots.get ⟨a, h.1.1⟩ = slots.get ⟨b, h.1.2⟩
      · exact ⟨false, by simp_all [Graph.differ?]⟩
      · exact ⟨valid, by simp_all [Graph.differ?]⟩

/-- The validity check over a graph with a node for each register variable makes no access out of
range. -/
theorem isValidColoring_eq_some {a : Annotated} (h : a.program.Indexed)
    (hslots : a.slots.length = a.program.registerCount) (hsize : g.size = a.program.registerCount)
    (palette : Palette) : ∃ valid, a.isValidColoring? palette g = some valid ∧
      isValidColoring a palette g = some valid := by
  have hvalid : ∃ valid, a.isValidColoring? palette g = some valid := by
    unfold Annotated.isValidColoring? Graph.isValidColoring?
    split
    · refine exists_differ? fun e he => ?_
      obtain ⟨ha, hb, _⟩ := (Graph.mem_edges.mp he).1
      rw [hslots, ← hsize]
      exact ⟨ha, hb⟩
    · exact ⟨false, rfl⟩
  obtain ⟨valid, hvalid⟩ := hvalid
  have hvars : a.program.registers.mapM a.program.var? =
      some (a.program.registers.map a.program.var) :=
    mapM_eq_some fun v hv => Program.var?_eq_some (h.register hv)
  have hrows : (List.range g.size).mapM g.neighbors? =
      some ((List.range g.size).map g.neighbors) :=
    mapM_eq_some fun node hnode => Graph.neighbors?_eq_some (List.mem_range.mp hnode)
  refine ⟨valid, hvalid, ?_⟩
  rw [isValidColoring, hvars, hrows]
  exact hvalid

end Allocate

end Checked

end RegAlloc
