import AArch64.Text.Digits

/-!
# Defects of decode tables

What can be wrong with a set of decode tables. Every defect is found while a graph is built; a
graph that is built has none.

## Main definitions

* `AArch64.Defect` — the defect, with the table and the part of it that is at fault.
* `AArch64.Defect.message` — its wording.
* `AArch64.Table.maxSampledBits`, `AArch64.Table.maxPatterns`, `AArch64.Table.wordBits` — limits.
-/

set_option autoImplicit false

namespace AArch64

namespace Table

/-- The most bits that a table may sample; a table has `2 ^ n` slots. -/
def maxSampledBits : Nat := 16

/-- The most entries of a table. -/
def maxPatterns : Nat := 100

/-- Bits of an instruction word. -/
def wordBits : Nat := 32

end Table

/-- A defect of a set of decode tables. -/
inductive Defect
  /-- The table samples no bit. -/
  | noSampledBits (node : String)
  /-- The table samples too many bits. -/
  | tooManySampledBits (node : String) (count : Nat)
  /-- A sampled bit is not a bit of the word. -/
  | bitOutOfRange (node : String) (bit : Nat)
  /-- A bit is sampled twice. -/
  | duplicateSampledBit (node : String) (bit : Nat)
  /-- The table has no entry. -/
  | noPatterns (node : String)
  /-- The table has too many entries. -/
  | tooManyPatterns (node : String) (count : Nat)
  /-- A pattern does not have one symbol for each sampled bit. -/
  | patternLength (node pattern : String) (length expected : Nat)
  /-- A pattern has a symbol other than `0`, `1` and `x`. -/
  | invalidSymbol (node pattern : String) (symbol : Char)
  /-- The first entry is the catch-all. -/
  | otherwiseFirst (node : String)
  /-- An entry follows the catch-all. -/
  | otherwiseNotLast (node : String)
  /-- Two tables, or a table and a category, have one name. -/
  | duplicateNode (node : String)
  /-- A target is neither a table nor a category. -/
  | unknownTarget (node target : String)
  /-- No entry covers a slot. -/
  | unmappedSlot (node : String) (index : Nat)
  /-- The table leads back to itself. -/
  | cycle (node : String)
  /-- A root is neither a table nor a category. -/
  | unknownRoot (node : String)
  /-- The base instruction set has no root. -/
  | missingBaseRoot
  deriving DecidableEq

/-- The wording of a defect. -/
def Defect.message : Defect → String
  | .noSampledBits node => s!"node `{node}` samples no bits"
  | .tooManySampledBits node count =>
    s!"node `{node}` samples {count} bits, at most {Table.maxSampledBits} are supported"
  | .bitOutOfRange node bit =>
    s!"node `{node}` samples bit {bit}, outside of the instruction word"
  | .duplicateSampledBit node bit => s!"node `{node}` samples bit {bit} more than once"
  | .noPatterns node => s!"node `{node}` has no patterns"
  | .tooManyPatterns node count =>
    s!"node `{node}` has {count} patterns, at most {Table.maxPatterns} are supported"
  | .patternLength node pattern length expected =>
    s!"pattern `{pattern}` of node `{node}` has {length} symbols, expected {expected}"
  | .invalidSymbol node pattern symbol =>
    s!"pattern `{pattern}` of node `{node}` contains invalid symbol `{symbol}`"
  | .otherwiseFirst node => s!"node `{node}` uses `otherwise` as its primary pattern"
  | .otherwiseNotLast node => s!"node `{node}` has patterns after its `otherwise` entry"
  | .duplicateNode node => s!"node `{node}` is defined more than once"
  | .unknownTarget node target => s!"node `{node}` refers to unknown node `{target}`"
  | .unmappedSlot node index =>
    s!"node `{node}` leaves index {Text.prefixedBinary index} unmapped " ++
      "and has no `otherwise` entry"
  | .cycle node => s!"node `{node}` is part of a cycle"
  | .unknownRoot node => s!"root node `{node}` is not defined"
  | .missingBaseRoot => "no root is registered for the base instruction set"

end AArch64
