import AArch64.Category
import AArch64.Graph.Sampler

/-!
# Cells of a compiled graph

A compiled graph is an array of cells that refer to each other by position. A cell looks a word up
in a table of slots, tests masked bits of the word against a value, or is a category. Tests come
from tables with two children only, one of which takes the slots of a *sub-cube*: all slots in
which some bits have given values.

## Main definitions

* `AArch64.Cell` — a cell, and `AArch64.Cell.next`, where it sends a word.
* `AArch64.SubCube.of?` — the sub-cube that the slots of a child form, if they do.
* `AArch64.Lowered` — what becomes of a filled table, and `AArch64.Lowered.ofChildren`.
* `AArch64.SubCube.checkedOf?`, `AArch64.Lowered.checkedOfChildren` — the same in checked 32-bit
  arithmetic.
-/

set_option autoImplicit false

namespace AArch64

/-- A cell of a compiled graph. -/
inductive Cell
  /-- The slot of the word selects a child. -/
  | table (sampler : Sampler) (children : Array Nat)
  /-- The masked bits of the word have the value, or not. -/
  | test (mask value : Word) (matched unmatched : Nat)
  /-- The category of the word. -/
  | leaf (c : Category)

/-- The cell that comes next for a word. At a leaf there is none. -/
def Cell.next : Cell → Word → Option Nat
  | .table sampler children, w => children[sampler.sample w]?
  | .test mask value matched unmatched, w =>
    some (if w &&& mask = value then matched else unmatched)
  | .leaf _, _ => none

/-- The category of a leaf. -/
def Cell.category? : Cell → Option Category
  | .leaf c => some c
  | _ => none

/-- The cells that a cell can lead to. -/
def Cell.successors : Cell → List Nat
  | .table _ children => children.toList
  | .test _ _ matched unmatched => [matched, unmatched]
  | .leaf _ => []

/-! ## Sub-cubes -/

/-- The slots `i` with `i &&& mask = value`. -/
structure SubCube where
  /-- The bits that are fixed. -/
  mask : Nat
  /-- Their values. -/
  value : Nat
  deriving DecidableEq

/-- The positions of a child among the slots, in increasing order. -/
def slotsOf (children : Array Nat) (child : Nat) : List Nat :=
  (children.toList.zipIdx.filter (·.1 = child)).map (·.2)

/-- The sub-cube of a list of slots of a table of `size = 2 ^ n` slots, if they form one. The bits
in which two slots differ are those set in some slot and clear in another; the slots are a
sub-cube if they are as many as there are values of these bits. -/
def SubCube.of? (size : Nat) (slots : List Nat) : Option SubCube :=
  let full := size - 1
  let all := slots.foldl (· &&& ·) full
  let any := slots.foldl (· ||| ·) 0
  let varying := all ^^^ any
  if slots.length = 2 ^ Bits.ones 32 varying then
    let mask := full ^^^ (varying &&& full)
    some { mask, value := all &&& mask }
  else none

/-! ## Lowering -/

/-- What becomes of a table whose slots are filled. -/
inductive Lowered
  /-- Every word goes to one child, which takes the place of the table. -/
  | forward (child : Nat)
  /-- The table becomes a cell. -/
  | cell (c : Cell)

namespace Lowered

/-- The test that sends the slots of `matched`, a sub-cube, there and all other words to
`unmatched`. Its mask and value are scattered from slots to words. -/
def test? (sampledMask : Word) (children : Array Nat) (matched unmatched : Nat) : Option Cell :=
  (SubCube.of? children.size (slotsOf children matched)).map fun cube =>
    let toWord (bits : Nat) : Word := BitVec.ofNat 32 (Bits.scatter 32 bits sampledMask.toNat)
    .test (toWord cube.mask) (toWord cube.value) matched unmatched

/-- The simplification of a table with one child or two, if it has one. Of two children the first
in the table is tried first. -/
def simplify? (sampledMask : Word) (children : Array Nat) : Option Lowered :=
  let first := children[0]?.getD 0
  match children.toList.find? (· ≠ first) with
  | none => some (.forward first)
  | some second =>
    if children.toList.all fun c => c = first ∨ c = second then
      ((test? sampledMask children first second).or
        (test? sampledMask children second first)).map .cell
    else none

/-- Lowers a table whose slot `i` leads to `children[i]`. -/
def ofChildren (sampledMask : Word) (children : Array Nat) (optimize : Bool) : Lowered :=
  let plain := .cell (.table (Sampler.ofMask sampledMask) children)
  if optimize then (simplify? sampledMask children).getD plain else plain

/-- The child that a word goes on to. -/
def next : Lowered → Word → Option Nat
  | .forward child, _ => some child
  | .cell c, w => c.next w

end Lowered

/-! ## Checked arithmetic -/

/-- What was seen of the slots of a child: the bits set in all of them, the bits set in some, and
how many slots there are. -/
structure Census where
  /-- The bits set in all slots. -/
  all : Word
  /-- The bits set in some slot. -/
  any : Word
  /-- The number of slots. -/
  count : Nat

/-- Sees one more slot. -/
def Census.add (c : Census) (slot : Nat) : Except Trap Census := do
  let index := BitVec.ofNat 32 slot
  Trap.fits (c.count + 1 < 2 ^ 32)
  return { all := c.all &&& index, any := c.any ||| index, count := c.count + 1 }

/-- `SubCube.of?` in one pass over the slots. The table has to have a slot. -/
def SubCube.checkedOf? (size : Nat) (slots : List Nat) : Except Trap (Option SubCube) := do
  let full := BitVec.ofNat 32 (← Bits.difference size 1)
  let census ← slots.foldlM Census.add { all := full, any := 0, count := 0 }
  let varying := census.all ^^^ census.any
  let expected ← Bits.shiftLeft 32 1 (Bits.ones 32 varying.toNat)
  if census.count = expected then
    let mask := ~~~varying &&& full
    return some { mask := mask.toNat, value := (census.all &&& mask).toNat }
  return none

namespace Lowered

/-- `test?` with the mask and the value scattered bit by bit. -/
def checkedTest? (sampledMask : Word) (children : Array Nat) (matched unmatched : Nat) :
    Except Trap (Option Cell) := do
  match (← SubCube.checkedOf? children.size (slotsOf children matched)) with
  | none => return none
  | some cube =>
    let mask ← Bits.Route.spread.move (BitVec.ofNat 32 cube.mask) sampledMask
    let value ← Bits.Route.spread.move (BitVec.ofNat 32 cube.value) sampledMask
    return some (.test mask value matched unmatched)

/-- `simplify?` for a table that has to have a slot. The second child is tried only if the first one
makes no test. -/
def checkedSimplify? (sampledMask : Word) (children : Array Nat) :
    Except Trap (Option Lowered) := do
  Trap.demand (0 < children.size)
  let first := children[0]?.getD 0
  match children.toList.find? (· ≠ first) with
  | none => return some (.forward first)
  | some second =>
    if children.toList.all fun c => c = first ∨ c = second then
      match (← checkedTest? sampledMask children first second) with
      | some c => return some (.cell c)
      | none => return (← checkedTest? sampledMask children second first).map .cell
    else return none

/-- `ofChildren` in checked arithmetic. -/
def checkedOfChildren (sampledMask : Word) (children : Array Nat) (optimize : Bool) :
    Except Trap Lowered := do
  let simplified ← if optimize then checkedSimplify? sampledMask children else pure none
  match simplified with
  | some l => return l
  | none => return .cell (.table (← Sampler.forMask sampledMask) children)

end Lowered

end AArch64
