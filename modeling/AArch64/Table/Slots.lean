import AArch64.Category
import AArch64.Table

/-!
# Tables over slot indices

A table of `n` sampled bits has `2 ^ n` slots. The slot of a word is the number whose bits are the
sampled bits of the word, the lowest sampled bit first. A pattern in table order is brought into
this order: its symbols are sorted by the significance of their bits, and read as a pair of a mask
and a value, so that a slot `i` matches when `i &&& mask = value`.

For example, with the sampled bits 24, 4 and 31 the pattern `10x` becomes `x10`, with mask `011`
and value `010`.

## Main definitions

* `AArch64.Pattern.ordered`, `AArch64.Pattern.maskValue` — from a pattern to mask and value.
* `AArch64.Pattern.slots` — the slots that a mask and a value select, in increasing order.
* `AArch64.SlotTable` — a table with its patterns in index order.
* `AArch64.Node` — a table or a category, as targets name them.
* `AArch64.Node.ofTable` — reads a table, after validating it.
-/

set_option autoImplicit false

namespace AArch64

namespace Pattern

/-! ## From table order to index order -/

/-- Puts a symbol into a list that falls by bit, behind those of the same bit. -/
def insertByBit (e : Nat × Char) : List (Nat × Char) → List (Nat × Char)
  | [] => [e]
  | f :: rest => if f.1 < e.1 then e :: f :: rest else f :: insertByBit e rest

/-- Symbols with their bits, the highest bit first; symbols of one bit keep their order. -/
def sortByBit (symbols : List (Nat × Char)) : List (Nat × Char) :=
  symbols.foldl (fun sorted e => insertByBit e sorted) []

/-- The symbols of a pattern in index order: the last one describes the lowest sampled bit. -/
def ordered (bits : List Nat) (pattern : String) : List Char :=
  (sortByBit (bits.zip pattern.toList)).map (·.2)

/-- `ordered` for a pattern that has to have one symbol for each sampled bit. -/
def checkedOrdered (bits : List Nat) (pattern : String) : Except Trap (List Char) := do
  Trap.demand (pattern.length = bits.length)
  return ordered bits pattern

/-- The mask and the value of symbols in index order. Symbols other than `0` and `1` leave their
bit free. Only the last 32 symbols count. -/
def maskValue (symbols : List Char) : Word × Word :=
  symbols.foldl (fun (mask, value) c =>
    (mask <<< 1 ||| (if c = '0' ∨ c = '1' then 1 else 0),
      value <<< 1 ||| (if c = '1' then 1 else 0))) (0, 0)

/-! ## Slots of a pattern -/

/-- The slots below `2 ^ width` whose masked bits are those of `value`, in increasing order. The top
bit of a slot is fixed if the mask has it; otherwise every slot of the lower bits comes without it
and then with it. -/
def slots (mask value : Nat) : (width : Nat) → List Nat
  | 0 => [0]
  | n + 1 =>
    let lower := slots mask value n
    let upper := lower.map (· + 2 ^ n)
    if mask.testBit n then (if value.testBit n then upper else lower) else lower ++ upper

end Pattern

/-! ## Tables in index order -/

/-- An entry of a table in index order. -/
structure SlotPattern where
  /-- The bits of the slot that the entry looks at. -/
  mask : Word
  /-- Their values. -/
  value : Word
  /-- The target of the entry. -/
  target : String
  deriving DecidableEq

/-- A table with its entries in index order. -/
structure SlotTable where
  /-- The name of the table. -/
  name : String
  /-- The sampled bits as a mask over the word. -/
  sampledMask : Word
  /-- The number of sampled bits. -/
  width : Nat
  /-- The explicit entries, in the order in which they are tried. -/
  patterns : List SlotPattern
  /-- The target of the slots that no explicit entry matches. -/
  otherwise? : Option String
  deriving DecidableEq

namespace SlotTable

/-- The slot of a word. -/
def indexOf (t : SlotTable) (w : Word) : Nat :=
  Bits.gather 32 w.toNat t.sampledMask.toNat

/-- The table with its entries in index order. -/
def ofTable (t : Table) : SlotTable where
  name := t.name
  sampledMask := t.bits.foldl (fun mask b => mask ||| .twoPow 32 b) 0
  width := t.bits.length
  patterns := t.explicit.map fun (pattern, target) =>
    let (mask, value) := Pattern.maskValue (Pattern.ordered t.bits pattern)
    { mask, value, target }
  otherwise? := t.otherwise?

end SlotTable

/-- What a target names. -/
inductive Node
  /-- A table, to be tried on the word. -/
  | table (t : SlotTable)
  /-- A category, the end of the way. -/
  | leaf (c : Category)
  deriving DecidableEq

namespace Node

/-- Reads a table, after validating it. -/
def ofTable (t : Table) : Except Defect Node := do
  t.validate
  return .table (.ofTable t)

/-- The name of a node. -/
def name : Node → String
  | .table t => t.name
  | .leaf c => c.name

/-- The names of the nodes that a node can lead to, one for each entry. -/
def targets : Node → List String
  | .table t => t.patterns.map (·.target) ++ t.otherwise?.toList
  | .leaf _ => []

/-- The slot of a word in a table; a category has none. -/
def indexOf : Node → Word → Option Nat
  | .table t, w => some (t.indexOf w)
  | .leaf _, _ => none

end Node

end AArch64
