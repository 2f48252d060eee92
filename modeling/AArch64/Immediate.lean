import AArch64.Bits

/-!
# Immediate fields

The ranges of the immediate fields of the integer instructions, and the fields of a value that
has one. Bitmask immediates have a module of their own.

| field                    | bits | values                              |
|--------------------------|------|-------------------------------------|
| add/sub                  | 12   | `0 .. 4095`, optionally times 4096  |
| move wide                | 16   | one halfword at a multiple of 16    |
| scaled load/store offset | 12   | `0 .. 4095` times the access size   |
| unscaled offset          | 9    | `-256 .. 255`                       |
| capability branch offset | 7    | `-64 .. 63` times 16                |

## Main definitions

* `AArch64.Immediate.addSub?` — the 12-bit field and its shift.
* `AArch64.Immediate.halfwords` — the halfwords of a value.
* `AArch64.Immediate.moveWide` — the one halfword of a value that is not zero.
* `AArch64.Immediate.isScaledOffset`, `AArch64.Immediate.isUnscaledOffset`,
  `AArch64.Immediate.isCapabilityOffset` — which offsets the addressing forms hold.
* `AArch64.Immediate.atWidth?` — a value as an operation of 32 or 64 bits reads it.
* `AArch64.Immediate.negate` — the negative of a 64-bit value.
-/

set_option autoImplicit false

namespace AArch64.Immediate

/-! ## Values -/

/-- The least value of a two's complement number of `width` bits. -/
def mostNegative (width : Nat) : Int :=
  -(2 ^ (width - 1) : Nat)

/-- The negative of a 64-bit two's complement number. The most negative number has none. -/
def negate (imm : Int) : Except Trap Int := do
  Trap.fits (imm ≠ mostNegative 64)
  return -imm

/-- A value as an operation of `width` bits reads it, as a signed number. A 32-bit operation
takes the values of the signed and of the unsigned 32-bit numbers. -/
def atWidth? (imm : Int) (width : Nat) : Option Int :=
  if width = 64 then some imm
  else if mostNegative 32 ≤ imm ∧ imm < 2 ^ 32 then
    some (if imm < 2 ^ 31 then imm else imm - 2 ^ 32)
  else none

/-- The bits of a signed number in a field of `width` bits. -/
def toBits (imm : Int) (width : Nat) : Nat :=
  (imm % 2 ^ width).toNat

/-- The complement of a number of `width` bits. -/
def complement (value width : Nat) : Nat :=
  2 ^ width - 1 - value % 2 ^ width

/-! ## Add and subtract -/

/-- The 12-bit field of an add/sub immediate, and whether it is shifted left by 12. Values that
fit unshifted are never shifted. -/
def addSub? (imm : Int) : Option (Nat × Bool) :=
  if 0 ≤ imm ∧ imm < 4096 then some (imm.toNat, false)
  else if 0 ≤ imm ∧ imm < 2 ^ 24 ∧ imm % 4096 = 0 then some ((imm / 4096).toNat, true)
  else none

/-! ## Move wide -/

/-- Halfword `i` of a value. -/
def halfword (value i : Nat) : Nat :=
  value / 2 ^ (16 * i) % 2 ^ 16

/-- The low `n` halfwords of a 64-bit value, which has four. -/
def halfwords (value n : Nat) : Except Trap (List Nat) :=
  (List.range n).mapM fun i => do return (← Bits.shiftRight 64 value (16 * i)) % 2 ^ 16

/-- The halfwords of the low `n` that are not zero, each with its position. -/
def nonzeroHalfwords (value n : Nat) : List (Nat × Nat) :=
  ((List.range n).map fun i => (halfword value i, i)).filter (·.1 ≠ 0)

/-- The halfword to move and its position, if at most one of the halfwords inside `width` bits is
not zero. Zero moves as halfword `0`. -/
def moveWide? (value width : Nat) : Option (Nat × Nat) :=
  match nonzeroHalfwords value (width / 16) with
  | [] => some (0, 0)
  | [h] => some h
  | _ => none

/-- `moveWide?` on a 64-bit value. Looking for a fifth halfword shifts the value by its whole
width; the search gets there unless the first four already hold two that are not zero. -/
def moveWide (value width : Nat) : Except Trap (Option (Nat × Nat)) := do
  if (nonzeroHalfwords value (min 4 (width / 16))).length > 1 then return none
  Trap.fits (width / 16 ≤ 4)
  return moveWide? value width

/-! ## Offsets of loads, stores and branches -/

/-- Whether an offset is a multiple of the access size `2 ^ sizeLog2` whose quotient fits 12
unsigned bits. The size of a non-negative offset's access has to be a 64-bit signed number. -/
def isScaledOffset (offset : Int) (sizeLog2 : Nat) : Except Trap Bool := do
  if offset < 0 then return false
  Trap.fits (sizeLog2 < 63)
  return offset % 2 ^ sizeLog2 = 0 ∧ offset / 2 ^ sizeLog2 < 4096

/-- Whether an offset fits nine signed bits. -/
def isUnscaledOffset (offset : Int) : Bool :=
  -256 ≤ offset ∧ offset ≤ 255

/-- Whether an offset is a multiple of 16 whose quotient fits seven signed bits. -/
def isCapabilityOffset (offset : Int) : Bool :=
  offset % 16 = 0 ∧ -1024 ≤ offset ∧ offset ≤ 1008

end AArch64.Immediate
