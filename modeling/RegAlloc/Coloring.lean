import RegAlloc.Graph
import RegAlloc.Palette

/-!
# Graph coloring

Coloring with `k` slots goes in two rounds. Simplification removes one node after the other: among
the nodes left, one with the highest degree below `k`. Selection takes the removed nodes in
reverse and gives each the first slot that no neighbor holds. Both rounds keep a trace of their
steps.
-/

namespace RegAlloc

/-! ### Simplification -/

/-- A node of those left, with its degree among them. -/
structure Removal where
  node : Nat
  degree : Nat
deriving DecidableEq, Repr

/-- The better of a candidate and `r`, which has to have a degree below `k` and above that of the
candidate. -/
def Removal.better (k : Nat) (best : Option Removal) (r : Removal) : Option Removal :=
  if r.degree < k ∧ ∀ b ∈ best, b.degree < r.degree then some r else best

/-- The node to remove next: the first of those with the highest degree below `k`. -/
def Removal.candidate? (k : Nat) (left : List Removal) : Option Removal :=
  left.foldl (better k) none

namespace Graph

/-- Number of neighbors of `node` among some nodes. -/
def degreeIn (g : Graph) (left : List Nat) (node : Nat) : Nat := left.countP (g.adjacent node)

/-- Some nodes, each with its degree among them. -/
def tally (g : Graph) (left : List Nat) : List Removal :=
  left.map fun node => ⟨node, g.degreeIn left node⟩

/-- Takes a node out of those left. Its neighbors lose one degree. -/
def without (g : Graph) (node : Nat) (left : List Removal) : List Removal :=
  (left.filter (·.node != node)).map fun r =>
    if g.adjacent r.node node then { r with degree := r.degree - 1 } else r

theorem degreeIn_erase (g : Graph) {left : List Nat} {node : Nat} (h : node ∈ left) (m : Nat) :
    g.degreeIn (left.erase node) m =
      if g.adjacent m node then g.degreeIn left m - 1 else g.degreeIn left m := by
  have count := (List.perm_cons_erase h).countP_eq (g.adjacent m)
  rw [List.countP_cons] at count
  unfold degreeIn
  split <;> simp_all

/-- The degrees stay right when a node is taken out. -/
theorem without_tally (g : Graph) {left : List Nat} {node : Nat} (distinct : left.Nodup)
    (h : node ∈ left) : g.without node (g.tally left) = g.tally (left.erase node) := by
  unfold without tally
  rw [List.filter_map, List.map_map, distinct.erase_eq_filter]
  refine List.map_congr_left fun m _ => ?_
  rw [← distinct.erase_eq_filter, g.degreeIn_erase h]
  simp only [Function.comp]
  split <;> rfl

/-- Removes `n` nodes, or as many as can be, and gives the number of those that are stuck. -/
def simplifyFrom (g : Graph) (k : Nat) : Nat → List Removal → List Removal × Option Nat
  | 0, _ => ([], none)
  | n + 1, left =>
    match Removal.candidate? k left with
    | none => ([], some (n + 1))
    | some r =>
      let (rs, stuck) := g.simplifyFrom k n (g.without r.node left)
      (r :: rs, stuck)

/-- The removals with `k` slots, and the number of nodes that could not be removed. -/
def simplifyTrace (g : Graph) (k : Nat) : List Removal × Option Nat :=
  g.simplifyFrom k g.size (g.tally (List.range g.size))

/-- The order of removal, or the number of nodes of which each has `k` or more neighbors left. -/
def simplify (g : Graph) (k : Nat) : Except Nat (List Nat) :=
  match g.simplifyTrace k with
  | (rs, none) => .ok (rs.map Removal.node)
  | (_, some remaining) => .error remaining

end Graph

/-! ### Selection -/

/-- A node with the slot that selection gave to it. -/
structure Pick where
  node : Nat
  slot : Slot
deriving DecidableEq, Repr

/-- How selection ended. -/
inductive Ending where
  | complete
  /-- all slots are held by neighbors of the node -/
  | stuck (node : Nat)
  /-- the graph has no such node -/
  | outside (node : Nat)
deriving DecidableEq, Repr

/-- The picks of a selection, the slot of each node afterwards, and how it ended. -/
structure Selection where
  picks : List Pick
  colors : Array (Option Slot)
  ending : Ending
deriving DecidableEq, Repr

namespace Graph

/-- The slot that a node holds. -/
def colorAt (colors : Array (Option Slot)) (node : Nat) : Option Slot := colors.getD node none

/-- The first slot that no neighbor of `node` holds. -/
def freeSlot? (g : Graph) (palette : Palette) (colors : Array (Option Slot)) (node : Nat) :
    Option Slot :=
  let held := g.neighbors node
  palette.slots.find? fun s => held.all fun m => colorAt colors m != some s

/-- Gives slots to `nodes` from the left. -/
def selectFrom (g : Graph) (palette : Palette) : Array (Option Slot) → List Nat → Selection
  | colors, [] => ⟨[], colors, .complete⟩
  | colors, node :: nodes =>
    if node < g.size then
      match g.freeSlot? palette colors node with
      | none => ⟨[], colors, .stuck node⟩
      | some slot =>
        let s := g.selectFrom palette (colors.setIfInBounds node (some slot)) nodes
        { s with picks := ⟨node, slot⟩ :: s.picks }
    else ⟨[], colors, .outside node⟩

/-- Gives slots to the nodes of a stack; the last one comes first. -/
def select (g : Graph) (palette : Palette) (stack : List Nat) : Selection :=
  g.selectFrom palette (Array.replicate g.size none) stack.reverse

end Graph

/-- The slots that were given, by node; nodes without one are left out. -/
def Selection.slots (s : Selection) : List Slot := s.colors.toList.filterMap id

end RegAlloc
