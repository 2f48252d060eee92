import AArch64.Bits

/-!
# Samplers

How a table of a compiled graph reads its slot off a word. All three ways read the bits selected
by a mask, packed in order of significance; a single bit and a run of adjacent bits have quicker
ways than the general gather.

## Main definitions

* `AArch64.Sampler` — the three ways.
* `AArch64.Sampler.ofMask` — the way that suits a mask.
* `AArch64.Sampler.sample` — the slot of a word.
* `AArch64.Sampler.forMask`, `AArch64.Sampler.read` — the same in checked 32-bit arithmetic.
-/

set_option autoImplicit false

namespace AArch64

/-- How the sampled bits are read off a word. -/
inductive Sampler
  /-- One bit. -/
  | bit (i : Nat)
  /-- A run of adjacent bits: shift down, then mask. -/
  | field (shift : Nat) (mask : Word)
  /-- Scattered bits, gathered one by one. -/
  | gather (mask : Word)
  deriving DecidableEq

namespace Sampler

/-- The way that suits a mask that is not zero. A mask is one run of adjacent bits if, moved down
to bit 0, it is one less than a power of two. -/
def ofMask (mask : Word) : Sampler :=
  let shift := (Bits.lowest? 32 mask.toNat).getD 0
  let run := mask >>> shift
  if Bits.ones 32 mask.toNat = 1 then .bit shift
  else if run &&& (run + 1) = 0 then .field shift run
  else .gather mask

/-- `ofMask` in checked arithmetic: the empty mask has no sampler, and the test for a run of several
bits adds one to the mask moved down to bit 0, which has to fit 32 bits. -/
def forMask (mask : Word) : Except Trap Sampler := do
  Trap.demand (mask ≠ 0)
  let run := mask >>> (Bits.lowest? 32 mask.toNat).getD 0
  Trap.fits (Bits.ones 32 mask.toNat = 1 ∨ run.toNat + 1 < 2 ^ 32)
  return ofMask mask

/-- The sampled bits of a word. -/
def sample : Sampler → Word → Nat
  | .bit i, w => (w.getLsbD i).toNat
  | .field shift mask, w => (w >>> shift &&& mask).toNat
  | .gather mask, w => Bits.gather 32 w.toNat mask.toNat

/-- `sample` with a check that the bit, or the shift, lies inside the word. -/
def read (s : Sampler) (w : Word) : Except Trap Nat := do
  match s with
  | .bit i => Trap.demand (i < 32)
  | .field shift _ => Trap.fits (shift < 32)
  | .gather _ => pure ()
  return s.sample w

end Sampler

end AArch64
