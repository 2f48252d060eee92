import AArch64.Graph.Cell

/-!
# Decode graphs

A decode graph is an array of cells with one root for each instruction set. The cells are in
topological order: a cell refers only to cells before it, so a walk visits ever smaller positions
and ends at a leaf.

## Main definitions

* `AArch64.Graph` — the graph.
* `AArch64.Graph.walk` — follows a word from a cell to a leaf.
* `AArch64.Graph.classify` — the category of a word in an instruction set.
* `AArch64.Graph.reachable` — the cells that some walk can visit.
-/

set_option autoImplicit false

namespace AArch64

/-- A compiled decode graph. -/
structure Graph where
  /-- The cells, each after the cells that it refers to. -/
  cells : Array Cell
  /-- The position of the root of the base instruction set. -/
  baseRoot : Nat
  /-- The position of the root of the capability state. -/
  capabilityRoot : Nat

namespace Graph

/-- The number of cells. -/
def size (g : Graph) : Nat :=
  g.cells.size

/-- The root of an instruction set. -/
def root (g : Graph) : Isa → Nat
  | .a64 => g.baseRoot
  | .c64 => g.capabilityRoot

/-- Follows a word from the cell at a position, over at most `steps` cells, to the category of a
leaf. -/
def walk (g : Graph) (w : Word) : (steps position : Nat) → Option Category
  | 0, _ => none
  | steps + 1, position =>
    match g.cells[position]? with
    | none => none
    | some (.leaf c) => some c
    | some cell =>
      match cell.next w with
      | none => none
      | some next => walk g w steps next

/-- The category that a word has in an instruction set. A walk visits no cell twice, so it may take
as many steps as there are cells. -/
def classify? (g : Graph) (w : Word) (isa : Isa) : Option Category :=
  g.walk w g.size (g.root isa)

/-- The category that a word has in an instruction set. Every walk of a graph that was built from
tables ends at a leaf; a word that leads nowhere would be unallocated. -/
def classify (g : Graph) (w : Word) (isa : Isa) : Category :=
  (g.classify? w isa).getD .unallocated

/-! ## Reachable cells -/

/-- Adds to `marked` what the cells below `n` lead to, for those of them that are marked. -/
def mark (g : Graph) : (n : Nat) → (marked : Array Bool) → Array Bool
  | 0, marked => marked
  | n + 1, marked =>
    if marked[n]?.getD false then
      let next := (g.cells[n]?.map Cell.successors).getD []
      mark g n (next.foldl (fun m i => m.setIfInBounds i true) marked)
    else mark g n marked

/-- The positions of the cells that can be reached from a root, in increasing order. Cells refer to
earlier cells only, so one pass from the last cell to the first finds all of them. -/
def reachable (g : Graph) : List Nat :=
  let roots := ((Array.replicate g.size false).setIfInBounds g.baseRoot true).setIfInBounds
    g.capabilityRoot true
  let marked := mark g g.size roots
  (List.range g.size).filter fun i => marked[i]?.getD false

end Graph

end AArch64
