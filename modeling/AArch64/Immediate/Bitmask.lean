import AArch64.Immediate

/-!
# Bitmask immediates

A logical immediate is an element of 2, 4, 8, 16, 32 or 64 bits that is repeated over the
operation width. The element is a run of ones, at least one and not all of them, rotated to the
right. The instruction holds it in three fields: `N` and the high part of `imms` spell the element
size, the low part of `imms` the length of the run less one, and `immr` the rotation.

| size | `N` | `imms`   |
|------|-----|----------|
| 64   | 1   | `xxxxxx` |
| 32   | 0   | `0xxxxx` |
| 16   | 0   | `10xxxx` |
| 8    | 0   | `110xxx` |
| 4    | 0   | `1110xx` |
| 2    | 0   | `11110x` |

## Main definitions

* `AArch64.Bitmask` — the three fields.
* `AArch64.RotatedRun` — what they stand for, with its value `AArch64.RotatedRun.value`.
* `AArch64.Bitmask.run?` — reads the fields.
* `AArch64.RotatedRun.ofValue?`, `AArch64.RotatedRun.fields` — the way back.
* `AArch64.RotatedRun.search`, `AArch64.RotatedRun.spell` — the way back in checked arithmetic.
* `AArch64.Bitmask.value?` — the value of the fields.
* `AArch64.Bitmask.repeated` — an element repeated by doubling.
* `AArch64.Bitmask.decode`, `AArch64.Bitmask.encode` — the checked codec on values.
-/

set_option autoImplicit false

namespace AArch64

/-- The fields of a bitmask immediate. -/
structure Bitmask where
  /-- Field `N`, one bit. -/
  n : Nat
  /-- Field `immr`, six bits. -/
  immr : Nat
  /-- Field `imms`, six bits. -/
  imms : Nat
  deriving DecidableEq

/-- A run of `length` ones in an element of `size` bits, rotated right by `rotation`. -/
structure RotatedRun where
  /-- Bits of the element. -/
  size : Nat
  /-- Ones in the element. -/
  length : Nat
  /-- Places that the run is rotated to the right. -/
  rotation : Nat
  deriving DecidableEq

namespace RotatedRun

/-- Whether bit `i` is set when the element is repeated without end: rotating right by `r` brings
bit `i + r` of the element to bit `i`. -/
def bit (run : RotatedRun) (i : Nat) : Bool :=
  (i + run.rotation) % run.size < run.length

/-- The element repeated over `width` bits. -/
def value (run : RotatedRun) (width : Nat) : Nat :=
  Bits.ofPredicate run.bit width

/-! ## From a value to its run -/

/-- Looks for the smallest element of a value of `2 ^ k` bits: while the two halves agree, the
lower half is the element to look at. The answer is the logarithm of the element's size, at
least 1. -/
def elementLog (value : Nat) : (k : Nat) → Nat
  | 0 => 1
  | 1 => 1
  | k + 2 =>
    let half := 2 ^ 2 ^ (k + 1)
    if value / half % half = value % half then elementLog (value % half) (k + 1) else k + 2

/-- An element of `size` bits, rotated to the right by `r < size` places. -/
def rotateRight (size element r : Nat) : Nat :=
  element / 2 ^ r + element % 2 ^ r * 2 ^ (size - r)

/-- The run of a value of `2 ^ k` bits, if it has one: its smallest element must come down to a
run at bit 0 under some rotation. Values of zeros or of ones only have none. -/
def ofValue? (value k : Nat) : Option RotatedRun :=
  if value = 0 ∨ value = 2 ^ 2 ^ k - 1 then none
  else
    let size := 2 ^ elementLog value k
    let element := value % 2 ^ size
    let length := Bits.ones size element
    (List.range size).find? (fun r => rotateRight size element r = 2 ^ length - 1) |>.map fun r =>
      { size, length, rotation := (size - r) % size }

/-- The fields that stand for a run. -/
def fields (run : RotatedRun) : Bitmask where
  n := if run.size = 64 then 1 else 0
  immr := run.rotation
  imms := (128 - 2 * run.size) % 64 + (run.length - 1)

/-! ## The same in checked arithmetic -/

/-- The number whose lowest `n` bits are set, for `n` up to 64. It is a shifted one less one, but a
one cannot be shifted by 64. -/
def lowOnes (n : Nat) : Except Trap Nat := do
  if n = 64 then return 2 ^ 64 - 1
  Bits.difference (← Bits.shiftLeft 64 1 n) 1

/-- The size and the bits of the smallest element of a value of `2 ^ k` bits. -/
def smallestElement (value : Nat) : (k : Nat) → Except Trap (Nat × Nat)
  | 0 => .ok (2, value)
  | 1 => .ok (2, value)
  | k + 2 => do
    let ones ← lowOnes (2 ^ (k + 1))
    let upper ← Bits.shiftRight 64 value (2 ^ (k + 1))
    if value &&& ones ≠ upper &&& ones then return (2 ^ (k + 2), value)
    smallestElement (value &&& ones) (k + 1)

/-- An element of `size` bits rotated to the right by `r < size` places. A rotation by nothing
stands apart, because it would shift a 64-bit element to the left by its whole size. -/
def rotate (size element r : Nat) : Except Trap Nat := do
  if r = 0 then return element
  let low ← Bits.shiftRight 64 element r
  let high ← Bits.shiftLeft 64 element (← Bits.difference size r)
  return (low ||| high) &&& (← lowOnes size)

/-- The run of a 64-bit value, if it has one. -/
def search (value : Nat) : Except Trap (Option RotatedRun) := do
  if value = 0 ∨ value = 2 ^ 64 - 1 then return none
  let (size, element) ← smallestElement value 6
  let length := Bits.ones size element
  let target ← lowOnes length
  match ← (List.range size).findM? fun r => do return (← rotate size element r) = target with
  | none => return none
  | some r => return some { size, length, rotation := (← Bits.difference size r) % size }

/-- The fields that stand for a run. -/
def spell (run : RotatedRun) : Except Trap Bitmask := do
  let last ← Bits.difference run.length 1
  return {
    n := if run.size = 64 then 1 else 0
    immr := run.rotation
    imms := (128 - 2 * run.size) % 64 + last }

end RotatedRun

namespace Bitmask

/-! ## From fields to a run -/

/-- The run that the fields stand for, for an operation of `width` bits. The highest set bit of
`N` followed by the complement of `imms` gives the size; an element wider than the operation, and a
run that fills its element, are reserved. Bits of `N` above bit 25 are lost. -/
def run? (b : Bitmask) (width : Nat) : Option RotatedRun :=
  let spelled := b.n % 2 ^ 26 * 64 + (63 - b.imms % 64)
  let size := 2 ^ spelled.log2
  if spelled < 2 ∨ width < size then none
  else if b.imms % size = size - 1 then none
  else some { size, length := b.imms % size + 1, rotation := b.immr % size }

/-! ## The codec on values -/

/-- The least power of two that is at least `width`. -/
def filled (width : Nat) : Nat :=
  if width ≤ 1 then 1 else 2 ^ ((width - 1).log2 + 1)

/-- The value of the fields in an operation of `width` bits, `none` for a reserved encoding. The
element is repeated by doubling until it fills the operation, so a width that is no power of two
is filled up to the next one. -/
def value? (b : Bitmask) (width : Nat) : Option Nat :=
  (b.run? width).map fun run => run.value (filled width)

/-- Repeats an element of `size` bits in 64-bit arithmetic, doubling it until it fills `width`
bits. -/
def repeated (width element size : Nat) : Except Trap Nat := do
  if 0 < size ∧ size < width then
    repeated width (element ||| (← Bits.shiftLeft 64 element size)) (2 * size)
  else return element
termination_by width - size

/-- `value?` in 64-bit arithmetic. The mask of the element is made even if the run is not rotated,
so an element has 64 bits at most. -/
def decode (b : Bitmask) (width : Nat) : Except Trap (Option Nat) := do
  match b.run? width with
  | none => return none
  | some run =>
    let _ ← RotatedRun.lowOnes run.size
    let ones ← Bits.difference (← Bits.shiftLeft 64 1 run.length) 1
    let value ← repeated width (← RotatedRun.rotate run.size ones run.rotation) run.size
    return some (if width = 32 then value % 2 ^ 32 else value)

/-- A value of 32 or 64 bits as one of 64 bits, a narrow value in both halves. -/
def fill64 (value width : Nat) : Except Trap Nat := do
  if width = 32 then return value ||| (← Bits.shiftLeft 64 value 32)
  return value

/-- The fields of a value in an operation of 32 or 64 bits, `none` if it is no bitmask
immediate. Bits of the value outside the operation do not count. -/
def encode (value width : Nat) : Except Trap (Option Bitmask) := do
  Trap.demand (width = 32 ∨ width = 64)
  match ← RotatedRun.search (← fill64 (value % 2 ^ width) width) with
  | none => return none
  | some run =>
    if width = 32 ∧ run.size = 64 then return none
    return some (← run.spell)

end Bitmask

end AArch64
