import AArch64.Bits
import AArch64.Table.Defect

/-!
# Decode tables

The declarative input of a decode graph. A table has a name, a list of sampled bits and a list of
entries, each a pattern over the sampled bits and a target: the name of another table or of a
category. Symbol `i` of a pattern describes sampled bit `i`: `1` is set, `0` is clear, `x` is
either. Entries are tried in order. The entry `otherwise` takes what is left; it comes last and
is not the only entry.

## Main definitions

* `AArch64.Table` — a table.
* `AArch64.Table.explicit`, `AArch64.Table.otherwise?` — its entries by kind.
* `AArch64.Table.validate` — the checks that need no other table.
* `AArch64.Table.covers`, `AArch64.Table.target?` — where a table sends a word, read off the
  table itself.
-/

set_option autoImplicit false

namespace AArch64

/-- A decode table. -/
structure Table where
  /-- The name that other tables refer to. -/
  name : String
  /-- The bits of the word that patterns describe, in the order of the patterns' symbols. -/
  bits : List Nat
  /-- Patterns and their targets, in the order in which they are tried. -/
  mapping : List (String × String)
  deriving DecidableEq

namespace Table

/-- The pattern of the catch-all entry. -/
def otherwisePattern : String := "otherwise"

/-- The target of the catch-all entry, if that is the last entry. -/
def otherwise? (t : Table) : Option String :=
  (t.mapping.getLast?.filter fun e => e.1 = otherwisePattern).map (·.2)

/-- The entries other than the catch-all, in order. -/
def explicit (t : Table) : List (String × String) :=
  t.mapping.filter fun e => e.1 ≠ otherwisePattern

/-! ## Where a table sends a word -/

/-- Whether a word agrees with a pattern over the sampled bits: each symbol is `x` or the value of
its bit. -/
def covers (bits : List Nat) (pattern : String) (w : Word) : Bool :=
  (bits.zip pattern.toList).all fun (b, c) =>
    c = 'x' ∨ c = if w.getLsbD b then '1' else '0'

/-- The target of a word: that of the first explicit entry whose pattern the word agrees with, else
that of the catch-all. -/
def target? (t : Table) (w : Word) : Option String :=
  match t.explicit.find? fun e => covers t.bits e.1 w with
  | some e => some e.2
  | none => t.otherwise?

/-! ## Validation -/

/-- The symbols that a pattern may hold. -/
def isSymbol (c : Char) : Bool :=
  c = '0' ∨ c = '1' ∨ c = 'x'

/-- Checks sampled bits in order, given those before them: each is a bit of the word, none comes
twice. -/
def checkBits (node : String) : (seen bits : List Nat) → Except Defect Unit
  | _, [] => .ok ()
  | seen, b :: bits =>
    if wordBits ≤ b then .error (.bitOutOfRange node b)
    else if b ∈ seen then .error (.duplicateSampledBit node b)
    else checkBits node (b :: seen) bits

/-- Checks an explicit pattern: one symbol for each of the `count` sampled bits, and no symbols but
`0`, `1` and `x`. -/
def checkPattern (node : String) (count : Nat) (pattern : String) : Except Defect Unit :=
  if pattern.length ≠ count then
    .error (.patternLength node pattern pattern.length count)
  else
    match pattern.toList.find? (!isSymbol ·) with
    | some c => .error (.invalidSymbol node pattern c)
    | none => .ok ()

/-- Checks entries in order. The catch-all is not the first entry of the table, and no entry
follows it. -/
def checkEntries (node : String) (count : Nat) :
    (first : Bool) → (entries : List (String × String)) → Except Defect Unit
  | _, [] => .ok ()
  | first, (pattern, _) :: rest => do
    if pattern = otherwisePattern then
      if first then .error (.otherwiseFirst node)
      if rest ≠ [] then .error (.otherwiseNotLast node)
    else
      checkPattern node count pattern
    checkEntries node count false rest

/-- Checks everything about a table that can be decided from the table alone. The first defect is
reported: the number of sampled bits, the bits in order, the number of entries, the entries in
order. -/
def validate (t : Table) : Except Defect Unit := do
  if t.bits.length = 0 then .error (.noSampledBits t.name)
  if maxSampledBits < t.bits.length then .error (.tooManySampledBits t.name t.bits.length)
  checkBits t.name [] t.bits
  if t.mapping.length = 0 then .error (.noPatterns t.name)
  if maxPatterns < t.mapping.length then .error (.tooManyPatterns t.name t.mapping.length)
  checkEntries t.name t.bits.length true t.mapping

end Table

end AArch64
