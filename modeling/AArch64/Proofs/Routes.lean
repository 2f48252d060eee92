import AArch64.Proofs.CheckedArithmetic
import AArch64.Proofs.Sampler

/-!
# Bits move one at a time

A word is gathered or scattered by visiting the set positions of the mask, from the lowest on, and
moving one bit at each. No step of this leaves the arithmetic of 128 bits, the result fits the word,
and it is what the recursion on the mask answers. The two routes lead back to where the bits came
from: packed bits are spread to their places, and spread bits are packed again.

## Main definitions

* `AArch64.Bits.Route.moves` — the bits that come from a list of positions.

## Main results

* `AArch64.Bits.positions_and_sub_one` — the positions that are left after a visit.
* `AArch64.Bits.Route.visit_eq_ok` — what all visits add to a number.
* `AArch64.Bits.Route.move_pack`, `AArch64.Bits.Route.move_spread` — the routes of a word.
* `AArch64.Bits.Route.pack_and_spread_inverse` — where packed bits come from, and the ways back.
-/

set_option autoImplicit false

namespace AArch64

namespace Bits

/-! ## The positions that are left -/

/-- Subtracting one and taking the common bits clears the lowest set position. -/
theorem positions_and_sub_one (n mask : Nat) :
    positions n (mask &&& (mask - 1)) = (positions n mask).tail := by
  induction n generalizing mask with
  | zero => rfl
  | succ n ih =>
    have half : (mask &&& (mask - 1)) / 2 = mask / 2 &&& (mask - 1) / 2 := Nat.and_div_two ..
    have even : (mask &&& (mask - 1)) % 2 = 0 := by
      rw [Nat.and_mod_two_pow (n := 1)]
      rcases Nat.mod_two_eq_zero_or_one mask with h | h
      · simp [h]
      · simp [show (mask - 1) % 2 = 0 by omega]
    rw [positions_succ, positions_succ, even, half]
    rcases Nat.mod_two_eq_zero_or_one mask with h | h
    · -- the lowest position is one of the upper half
      rw [show (mask - 1) / 2 = mask / 2 - 1 by omega, ih]
      simp [h, List.map_tail]
    · rw [show (mask - 1) / 2 = mask / 2 by omega, Nat.and_self]
      simp [h]

/-- The positions of a mask that is not zero are the lowest one and those that are left. -/
theorem exists_lowest?_and_positions_eq {n mask : Nat} (hm : mask < 2 ^ n) (h0 : mask ≠ 0) :
    ∃ i, lowest? n mask = some i ∧
      positions n mask = i :: positions n (mask &&& (mask - 1)) := by
  obtain ⟨i, hi⟩ := exists_lowest? hm h0
  refine ⟨i, hi, ?_⟩
  rw [lowest?_eq_head?] at hi
  obtain ⟨rest, hrest⟩ := List.head?_eq_some_iff.1 hi
  rw [positions_and_sub_one, hrest, List.tail_cons]

namespace Route

/-! ## Visits -/

/-- A bit that is moved, alone in its number. -/
theorem testBit_moved {t : Nat} (ht : t < 128) (value s j : Nat) :
    ((value / 2 ^ s &&& 1) * 2 ^ t % 2 ^ 128).testBit j = (decide (j = t) && value.testBit s) := by
  have bit : value / 2 ^ s &&& 1 = (value.testBit s).toNat := by
    rw [Nat.and_one_is_mod, Nat.toNat_testBit]
  rw [bit, Nat.testBit_mod_two_pow, Nat.testBit_mul_two_pow, Nat.testBit_bool_toNat]
  by_cases hj : j = t
  · subst hj
    simp [ht]
  · have apart : t ≤ j → j - t ≠ 0 := by omega
    by_cases hle : t ≤ j <;> simp [hj, hle, apart]

/-- Bit `j` of what comes from a list of positions, the first of which is the `k`-th. -/
def moves (route : Route) (value : Nat) (positions : List Nat) (k j : Nat) : Bool :=
  (positions.zipIdx k).any fun e =>
    decide (j = route.target e.1 e.2) && value.testBit (route.source e.1 e.2)

/-- A bit is set by the first move or by one of the others. -/
theorem moves_cons (route : Route) (value i : Nat) (rest : List Nat) (k j : Nat) :
    route.moves value (i :: rest) k j =
      (decide (j = route.target i k) && value.testBit (route.source i k) ||
        route.moves value rest (k + 1) j) := by
  rw [moves, List.zipIdx_cons, List.any_cons]
  rfl

/-- Both ends of a move are inside 128 bits. -/
theorem source_lt_and_target_lt (route : Route) {i k : Nat} (hi : i < 128) (hk : k < 128) :
    route.source i k < 128 ∧ route.target i k < 128 := by
  cases route with
  | pack => exact ⟨hi, hk⟩
  | spread => exact ⟨hk, hi⟩

/-- One visit moves the bit of the lowest position, and goes on with the positions that are left. -/
theorem visit_step (route : Route) (value result : Nat) {mask k : Nat} (hm : mask < 2 ^ 128)
    (h0 : mask ≠ 0) (hk : k + (positions 128 mask).length ≤ 128) :
    ∃ i moved, positions 128 mask = i :: positions 128 (mask &&& (mask - 1)) ∧
      (∀ j, moved.testBit j =
        (decide (j = route.target i k) && value.testBit (route.source i k))) ∧
      route.visit value mask k result =
        route.visit value (mask &&& (mask - 1)) (k + 1) (result ||| moved) ∧
      k + 1 + (positions 128 (mask &&& (mask - 1))).length ≤ 128 := by
  obtain ⟨i, hi, split⟩ := exists_lowest?_and_positions_eq hm h0
  rw [split, List.length_cons] at hk
  obtain ⟨hsource, htarget⟩ :=
    route.source_lt_and_target_lt (lowest?_lt hi) (show k < 128 by omega)
  refine ⟨i, _, split, testBit_moved htarget value (route.source i k), ?_, by omega⟩
  rw [visit, if_neg h0]
  simp only [hi, Option.getD_some]
  rw [shiftRight_of_lt hsource, ok_bind, shiftLeft_of_lt htarget, ok_bind]

/-- All visits add the bits of the positions to the result.

**Proof sketch.** Induction along the visits. The positions of the remaining mask are those that are
still to be visited, and `k` is the number of those before, so there is room for as many more as are
left. One visit takes the first position off the list (`visit_step`) and adds its bit. -/
theorem visit_eq_ok (route : Route) (value : Nat) {mask k : Nat} (result : Nat)
    (hm : mask < 2 ^ 128) (hk : k + (positions 128 mask).length ≤ 128) :
    ∃ r, route.visit value mask k result = .ok r ∧
      ∀ j, r.testBit j = (result.testBit j || route.moves value (positions 128 mask) k j) := by
  induction mask, k, result using visit.induct with
  | case1 k result =>
    refine ⟨result, ?_, fun j => (Bool.or_false _).symm⟩
    rw [visit, if_pos rfl]
  | case2 mask k result h0 ih =>
    obtain ⟨i, moved, split, bits, step, room⟩ := visit_step route value result hm h0 hk
    obtain ⟨r, hr, hbits⟩ := ih moved (Nat.lt_of_le_of_lt Nat.and_le_left hm) room
    refine ⟨r, step.trans hr, fun j => ?_⟩
    rw [hbits, Nat.testBit_or, bits, split, moves_cons, Bool.or_assoc]

/-- Packed, the bit of the `j`-th position comes to bit `j`. -/
theorem moves_pack_iff {value j : Nat} {ps : List Nat} :
    pack.moves value ps 0 j ↔ ∃ i, ps[j]? = some i ∧ value.testBit i := by
  simp only [moves, List.any_eq_true, List.mem_zipIdx_iff_getElem?, Bool.and_eq_true,
    decide_eq_true_eq, Prod.exists]
  constructor
  · rintro ⟨i, k, hi, rfl, hbit⟩
    exact ⟨i, hi, hbit⟩
  · rintro ⟨i, hi, hbit⟩
    exact ⟨i, j, hi, rfl, hbit⟩

/-- Spread, bit `j` comes to the `j`-th position. -/
theorem moves_spread_iff {value i : Nat} {ps : List Nat} :
    spread.moves value ps 0 i ↔ ∃ j, ps[j]? = some i ∧ value.testBit j := by
  simp only [moves, List.any_eq_true, List.mem_zipIdx_iff_getElem?, Bool.and_eq_true,
    decide_eq_true_eq, Prod.exists]
  constructor
  · rintro ⟨i, j, hj, rfl, hbit⟩
    exact ⟨j, hj, hbit⟩
  · rintro ⟨j, hj, hbit⟩
    exact ⟨i, j, hj, rfl, hbit⟩

/-! ## Words -/

section Words

variable {w : Nat}

/-- A pass over all positions of a mask answers the number with the bits that are moved. -/
theorem visit_zero_eq_ok (route : Route) (hw : w ≤ 128) (value : Nat) {mask answer : Nat}
    (hmask : mask < 2 ^ w)
    (h : ∀ j, answer.testBit j = route.moves value (positions w mask) 0 j) :
    route.visit value mask 0 0 = .ok answer := by
  have wide : mask < 2 ^ 128 := Nat.lt_of_lt_of_le hmask (Nat.pow_le_pow_right (by omega) hw)
  have room : 0 + (positions 128 mask).length ≤ 128 := by
    rw [Nat.zero_add, length_positions]
    exact RotatedRun.ones_le 128 mask
  obtain ⟨r, hr, bits⟩ := visit_eq_ok route value 0 wide room
  rw [hr]
  refine congrArg Except.ok (Nat.eq_of_testBit_eq fun j => ?_)
  rw [bits, Nat.zero_testBit, Bool.false_or, positions_of_lt hw hmask, h]

/-- Packing is gathering. -/
theorem move_pack (hw : w ≤ 128) (value mask : BitVec w) :
    pack.move value mask = .ok (gatherWord value mask) := by
  have visited : pack.visit value.toNat mask.toNat 0 0 =
      .ok (gather w value.toNat mask.toNat) := by
    refine visit_zero_eq_ok pack hw _ mask.isLt fun j => ?_
    rw [Bool.eq_iff_iff, moves_pack_iff, testBit_gather]
    cases (positions w mask.toNat)[j]? <;> simp
  rw [move, visited, ok_bind, Trap.fits, if_pos (decide_eq_true (gather_lt_two_pow _ _ _))]
  rfl

/-- Spreading is scattering. -/
theorem move_spread (hw : w ≤ 128) (value mask : BitVec w) :
    spread.move value mask = .ok (scatterWord value mask) := by
  have visited : spread.visit value.toNat mask.toNat 0 0 =
      .ok (scatter w value.toNat mask.toNat) := by
    refine visit_zero_eq_ok spread hw _ mask.isLt fun j => ?_
    rw [Bool.eq_iff_iff, moves_spread_iff, testBit_scatter_iff _ mask.isLt]
  rw [move, visited, ok_bind, Trap.fits, if_pos (decide_eq_true (scatter_lt_two_pow _ mask.isLt))]
  rfl

end Words

end Route

/-! ## There and back -/

section Inverse

variable {w : Nat} (value mask : BitVec w)

/-- The bits of a gathered word. -/
theorem getLsbD_gatherWord (j : Nat) :
    (gatherWord value mask).getLsbD j =
      (((positions w mask.toNat)[j]?).map value.getLsbD).getD false := by
  rw [← BitVec.testBit_toNat, toNat_gatherWord, testBit_gather]
  rfl

/-- What was packed is spread to its places again. -/
theorem scatterWord_gatherWord : scatterWord (gatherWord value mask) mask = value &&& mask := by
  refine BitVec.eq_of_toNat_eq ?_
  rw [toNat_scatterWord, toNat_gatherWord, scatter_gather, BitVec.toNat_and,
    Nat.mod_eq_of_lt (Nat.lt_of_le_of_lt Nat.and_le_right mask.isLt)]

/-- What was spread is packed again, as far as the mask had room for it. -/
theorem toNat_gatherWord_scatterWord :
    (gatherWord (scatterWord value mask) mask).toNat = value.toNat % 2 ^ ones w mask.toNat := by
  rw [toNat_gatherWord, toNat_scatterWord, gather_scatter]

end Inverse

/-- **Packing and spreading are inverse on what the mask selects.** For words of any width up to
128 bits, moving the bits one by one ends without a trap, and is gathering or scattering. Bit `j` of
a packed word is the bit at the `j`-th lowest set position of the mask, as long as there is one, and
clear beyond. Spreading a packed word gives the bits that the mask selects, and packing a spread
word gives as many low bits as the mask has set positions. -/
theorem Route.pack_and_spread_inverse {w : Nat} (hw : w ≤ 128) (value mask : BitVec w) :
    ∃ packed scattered : BitVec w,
      pack.move value mask = .ok packed ∧ gatherWord value mask = packed ∧
      spread.move value mask = .ok scattered ∧ scatterWord value mask = scattered ∧
      (∀ j < ones w mask.toNat, ∃ i, (positions w mask.toNat)[j]? = some i ∧
        packed.getLsbD j = value.getLsbD i) ∧
      (∀ j, ones w mask.toNat ≤ j → packed.getLsbD j = false) ∧
      spread.move packed mask = .ok (value &&& mask) ∧
      ∃ low, pack.move scattered mask = .ok low ∧
        low.toNat = value.toNat % 2 ^ ones w mask.toNat := by
  refine ⟨_, _, move_pack hw value mask, rfl, move_spread hw value mask, rfl, ?_, ?_, ?_,
    _, move_pack hw _ mask, toNat_gatherWord_scatterWord value mask⟩
  · intro j hj
    rw [← length_positions] at hj
    exact ⟨_, List.getElem?_eq_getElem hj, by simp [getLsbD_gatherWord, hj]⟩
  · intro j hj
    rw [← length_positions] at hj
    rw [getLsbD_gatherWord, List.getElem?_eq_none hj]
    rfl
  · rw [move_spread hw, scatterWord_gatherWord]

/-- Scattered positions of a byte, both ways, and all positions of a word of 64 bits. -/
theorem Route.pack_and_spread_inverse_widths :
    (pack.move 0xb6#8 0x5c#8 = .ok 0x5#8 ∧ spread.move 0x5#8 0x5c#8 = .ok 0x14#8) ∧
    (spread.move 0xb6#8 0x5c#8 = .ok 0x18#8 ∧
      ∃ low, pack.move 0x18#8 0x5c#8 = .ok low ∧ low.toNat = 0x6) ∧
    ∃ packed, pack.move 0x8000000000000001#64 (.allOnes 64) = .ok packed ∧
      packed.getLsbD 63 = true ∧
      spread.move packed (.allOnes 64) = .ok 0x8000000000000001#64 := by
  obtain ⟨packed, scattered, hpacked, packed_eq, hscattered, scattered_eq, -, -, back, low⟩ :=
    pack_and_spread_inverse (by decide) 0xb6#8 0x5c#8
  obtain ⟨long, -, hlong, long_eq, -, -, -, -, long_back, -⟩ :=
    pack_and_spread_inverse (by decide) 0x8000000000000001#64 (.allOnes 64)
  obtain rfl : packed = 0x5#8 := by
    rw [← packed_eq]
    decide
  obtain rfl : scattered = 0x18#8 := by
    rw [← scattered_eq]
    decide
  refine ⟨⟨hpacked, back⟩, ⟨hscattered, low⟩, long, hlong, ?_, long_back.trans ?_⟩
  · rw [← long_eq]
    decide +kernel
  · decide

end Bits

end AArch64
