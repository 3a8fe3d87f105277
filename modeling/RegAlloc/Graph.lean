/-!
# Conflict graphs

An undirected graph on the nodes `0, 1, …, size - 1`, kept as one row-major matrix. A cell is found
at `a * size + b` whatever the nodes are; `adjacent?`, `neighbors?` and `addEdge?` answer `none`
where that lies outside the matrix.

The matrix of a graph has `size * size` cells, and the index of each of them is below that product.
So the arithmetic is that of machine words as long as `size * size` fits a word, which it does for
every matrix that an address space can hold.
-/

namespace RegAlloc

/-- A graph as a square matrix of cells. -/
structure Graph where
  size : Nat
  cells : Array Bool
  size_cells : cells.size = size * size
deriving DecidableEq

namespace Graph

/-- The graph with `size` nodes and no edge. -/
def empty (size : Nat) : Graph := ⟨size, Array.replicate (size * size) false, by simp⟩

instance : Inhabited Graph := ⟨empty 0⟩

/-- Index of the cell for `a` and `b`. -/
def cell (g : Graph) (a b : Nat) : Nat := a * g.size + b

/-! ### Reading -/

/-- The cell for `a` and `b`, if there is one. -/
def adjacent? (g : Graph) (a b : Nat) : Option Bool := g.cells[g.cell a b]?

/-- Whether `a` and `b` are joined by an edge. -/
def adjacent (g : Graph) (a b : Nat) : Bool := g.cells.getD (g.cell a b) false

theorem adjacent_eq (g : Graph) (a b : Nat) : g.adjacent a b = (g.adjacent? a b).getD false := by
  simp [adjacent, adjacent?]

/-- The nodes joined to `node`, ascending. -/
def neighbors (g : Graph) (node : Nat) : List Nat := (List.range g.size).filter (g.adjacent node)

/-- The nodes joined to `node`, if its row lies inside the matrix. -/
def neighbors? (g : Graph) (node : Nat) : Option (List Nat) :=
  if (node + 1) * g.size ≤ g.cells.size then some (g.neighbors node) else none

/-- Number of nodes joined to `node`. -/
def degree (g : Graph) (node : Nat) : Nat := (g.neighbors node).length

/-- Number of edges. -/
def edgeCount (g : Graph) : Nat := g.cells.toList.count true / 2

/-- The edges `(a, b)` with `a < b`, ascending. -/
def edges (g : Graph) : List (Nat × Nat) :=
  (List.range g.size).flatMap fun a => ((g.neighbors a).filter (a < ·)).map (a, ·)

/-- Whether the matrix is symmetric and its diagonal empty. -/
def isSymmetric (g : Graph) : Bool :=
  (List.range g.size).all fun a =>
    !g.adjacent a a && (List.range g.size).all fun b => g.adjacent a b == g.adjacent b a

/-! ### Writing -/

/-- Whether both cells for `a` and `b` lie inside the matrix. -/
def covers (g : Graph) (a b : Nat) : Bool :=
  decide (g.cell a b < g.cells.size) && decide (g.cell b a < g.cells.size)

/-- Sets both cells for `a` and `b`. -/
def mark (g : Graph) (a b : Nat) : Graph :=
  match g with
  | ⟨size, cells, h⟩ =>
    ⟨size, (cells.setIfInBounds (a * size + b) true).setIfInBounds (b * size + a) true, by simp [h]⟩

/-- Joins `a` and `b`, unless they are the same node. Says whether the edge is new. -/
def addEdge? (g : Graph) (a b : Nat) : Option (Graph × Bool) :=
  if a = b then some (g, false)
  else if g.covers a b then
    let isNew := !g.adjacent a b
    some (g.mark a b, isNew)
  else none

/-- Joins `a` and `b`; cells outside the matrix change nothing. -/
def addEdge (g : Graph) (a b : Nat) : Graph :=
  if a = b then g else if g.covers a b then g.mark a b else g

theorem addEdge_eq (g : Graph) (a b : Nat) :
    g.addEdge a b = ((g.addEdge? a b).map Prod.fst).getD g := by
  unfold addEdge addEdge?
  split
  · rfl
  · split <;> rfl

/-! ### Printing -/

/-- The matrix, one row on each line. -/
def render (g : Graph) : String :=
  String.join <| (List.range g.size).map fun a =>
    "[" ++ String.join ((List.range g.size).map fun b => if g.adjacent a b then " 1" else " 0")
      ++ " ]\n"

end Graph

end RegAlloc
