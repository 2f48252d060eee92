import AArch64.Proofs.CheckedArithmetic
import Mathlib.Data.Int.ModEq

/-!
# Sign extension reads two's complement

A field of `n` bits stands for the number from `-2 ^ (n - 1)` up to `2 ^ (n - 1)` that has the same
remainder modulo `2 ^ n`. Flipping the sign bit and subtracting it computes this number: it takes
away what was added if the bit was clear, and twice as much as the bit is worth if it was set.

## Main results

* `AArch64.Bits.xor_two_pow_sub_two_pow` — what flipping and subtracting the top bit does.
* `AArch64.Bits.signedByBorrow_eq` — the subtraction reads the field.
* `AArch64.Bits.signedByBorrow_unique` — the number is in range and has the remainder, and is the
  only one.
-/

set_option autoImplicit false

namespace AArch64

namespace Bits

/-! ## The top bit -/

/-- Flipping a bit above a number adds it. -/
theorem xor_two_pow_of_lt {k x : Nat} (hx : x < 2 ^ k) : x ^^^ 2 ^ k = x + 2 ^ k := by
  have disjoint : 2 ^ k + x = 2 ^ k ||| x := by
    simpa using Nat.two_pow_add_eq_or_of_lt hx 1
  rw [Nat.add_comm, disjoint]
  refine Nat.eq_of_testBit_eq fun j => ?_
  rw [Nat.testBit_xor, Nat.testBit_or, Nat.testBit_two_pow]
  by_cases hj : k = j
  · subst hj
    simp [Nat.testBit_lt_two_pow hx]
  · simp [hj]

/-- Flipping the top bit of `k + 1` bits and subtracting it leaves a number as it is if the bit was
clear, and borrows `2 ^ (k + 1)` if it was set. -/
theorem xor_two_pow_sub_two_pow {k x : Nat} (hx : x < 2 ^ (k + 1)) :
    ((x ^^^ 2 ^ k : Nat) : Int) - (2 ^ k : Nat) = (x : Int).bmod (2 ^ (k + 1)) := by
  have double : 2 ^ (k + 1) = 2 ^ k * 2 := Nat.pow_succ 2 k
  by_cases clear : x < 2 ^ k
  · rw [xor_two_pow_of_lt clear, Int.bmod_eq_of_le_mul_two (by omega) (by omega)]
    omega
  · obtain ⟨y, rfl⟩ := Nat.exists_eq_add_of_le' (Nat.not_lt.1 clear)
    have hy : y < 2 ^ k := by omega
    have flipped : y + 2 ^ k ^^^ 2 ^ k = y := by
      rw [← xor_two_pow_of_lt hy, Nat.xor_assoc, Nat.xor_self, Nat.xor_zero]
    have borrowed :
        ((y + 2 ^ k : Nat) : Int) = (y : Int) - (2 ^ k : Nat) + (2 ^ (k + 1) : Nat) := by
      omega
    rw [flipped, borrowed, Int.add_bmod_right, Int.bmod_eq_of_le_mul_two (by omega) (by omega)]

/-- A number whose top bit is clear is not negative. -/
theorem toInt_ofNat_of_lt {w x : Nat} (hx : x < 2 ^ w) : (BitVec.ofNat (w + 1) x).toInt = x := by
  have double : 2 ^ (w + 1) = 2 ^ w * 2 := Nat.pow_succ 2 w
  rw [BitVec.toInt_ofNat', Int.bmod_eq_of_le_mul_two (by omega) (by omega)]

/-- The numbers that a field of `k + 1` bits stands for. -/
theorem le_bmod_and_bmod_lt (x : Int) (k : Nat) :
    -(2 ^ k : Nat) ≤ x.bmod (2 ^ (k + 1)) ∧ x.bmod (2 ^ (k + 1)) < (2 ^ k : Nat) := by
  have double : 2 ^ (k + 1) = 2 ^ k * 2 := Nat.pow_succ 2 k
  have lower := @Int.le_bmod x _ (Nat.two_pow_pos (k + 1))
  have upper := @Int.bmod_lt x _ (Nat.two_pow_pos (k + 1))
  omega

/-- The flipped field and the sign bit are positive in arithmetic of 128 bits, and their difference
fits. -/
theorem differenceSigned_flipped {k : Nat} (hk : k < 64) (x : Nat) :
    differenceSigned 128 (BitVec.ofNat 128 (x % 2 ^ (k + 1) ^^^ 2 ^ k)).toInt
      (BitVec.ofNat 128 (2 ^ k)).toInt = .ok ((x : Int).bmod (2 ^ (k + 1))) := by
  have small : 2 ^ k ≤ 2 ^ 63 := Nat.pow_le_pow_right (by decide) (by omega)
  have double : 2 ^ (k + 1) = 2 ^ k * 2 := Nat.pow_succ 2 k
  have field_lt : x % 2 ^ (k + 1) < 2 ^ (k + 1) := Nat.mod_lt x (Nat.two_pow_pos _)
  have flipped_lt : x % 2 ^ (k + 1) ^^^ 2 ^ k < 2 ^ (k + 1) :=
    Nat.xor_lt_two_pow field_lt (by omega)
  have answer : ((x % 2 ^ (k + 1) ^^^ 2 ^ k : Nat) : Int) - (2 ^ k : Nat) =
      (x : Int).bmod (2 ^ (k + 1)) := by
    rw [xor_two_pow_sub_two_pow field_lt, Int.natCast_emod, Int.emod_bmod]
  obtain ⟨lower, upper⟩ := le_bmod_and_bmod_lt x k
  rw [toInt_ofNat_of_lt (by omega), toInt_ofNat_of_lt (by omega),
    differenceSigned_of_le (by omega) (by omega), answer]

/-! ## Fields -/

section Fields

variable {w : Nat} (value : BitVec w)

/-- The field stands for the remainder that is nearest to zero. -/
theorem signed_of_le {n : Nat} (hn : 0 < n) (hn' : n ≤ 64) :
    signed value n = .ok ((value.toNat : Int).bmod (2 ^ n)) := by
  rw [signed, Trap.demand, if_pos (by simp [hn, hn']), BitVec.toInt_setWidth]
  rfl

/-- The subtraction reads the field, whatever is above it.

**Proof sketch.** The masked bits are the remainder of the word. With the sign bit flipped and
subtracted they are the number that the field stands for (`differenceSigned_flipped`), which fits 64
bits, so it is read off these without a change. -/
theorem signedByBorrow_eq (n : Nat) : signedByBorrow value n = signed value n := by
  by_cases hn : 0 < n ∧ n ≤ 64
  · obtain ⟨k, rfl⟩ : ∃ k, n = k + 1 := ⟨n - 1, by omega⟩
    have demand : Trap.demand (0 < k + 1 && k + 1 ≤ 64) = .ok () := by
      rw [Trap.demand, if_pos (by simpa using hn)]
    have read : (BitVec.ofInt 64 ((value.toNat : Int).bmod (2 ^ (k + 1)))).toInt =
        (value.toNat : Int).bmod (2 ^ (k + 1)) := by
      have small : 2 ^ k ≤ 2 ^ 63 := Nat.pow_le_pow_right (by decide) (by omega)
      obtain ⟨lower, upper⟩ := le_bmod_and_bmod_lt value.toNat k
      rw [BitVec.toInt_ofInt, Int.bmod_eq_of_le_mul_two (by omega) (by omega)]
    rw [signed_of_le value hn.1 hn.2, signedByBorrow, demand, ok_bind, Nat.add_sub_cancel,
      shiftLeft_one (by omega), ok_bind, shiftLeft_one (by omega), ok_bind,
      difference_of_le Nat.one_le_two_pow, ok_bind]
    dsimp only
    rw [Nat.and_two_pow_sub_one_eq_mod, differenceSigned_flipped (by omega), ok_bind, read]
    rfl
  · have refused : (0 < n && n ≤ 64) = false := by simpa using hn
    rw [signedByBorrow, signed, refused]
    rfl

/-- **Sign extension reads two's complement.** For every word and every field of 1 to 64 bits, which
may be wider than the word, the subtraction does not overflow. It answers the one number from
`-2 ^ (n - 1)` up to `2 ^ (n - 1)` that has the remainder of the word modulo `2 ^ n`, whatever bits
the word has above the field. -/
theorem signedByBorrow_unique {n : Nat} (hn : 0 < n) (hn' : n ≤ 64) :
    ∃ r : Int, signedByBorrow value n = .ok r ∧ signed value n = .ok r ∧
      ∀ s : Int, (-2 ^ (n - 1) ≤ s ∧ s < 2 ^ (n - 1)) ∧ s ≡ value.toNat [ZMOD 2 ^ n] ↔ s = r := by
  refine ⟨_, ?_, signed_of_le value hn hn', fun s => ?_⟩
  · rw [signedByBorrow_eq, signed_of_le value hn hn']
  · obtain ⟨k, rfl⟩ : ∃ k, n = k + 1 := ⟨n - 1, by omega⟩
    have double : 2 ^ (k + 1) = 2 ^ k * 2 := Nat.pow_succ 2 k
    have half : (2 : Int) ^ k = (2 ^ k : Nat) := by norm_cast
    have whole : (2 : Int) ^ (k + 1) = (2 ^ (k + 1) : Nat) := by norm_cast
    rw [eq_comm, Int.bmod_eq_iff (Nat.two_pow_pos _), Int.modEq_comm, Int.modEq_iff_dvd,
      Nat.add_sub_cancel, and_assoc, half, whole]
    refine and_congr ?_ (and_congr ?_ Iff.rfl) <;> omega

/-- A field with bits above it, one that is wider than its word, and one of all 64 bits. -/
theorem signedByBorrow_unique_fields :
    signedByBorrow 0xfe09#16 4 = .ok (-7) ∧ signedByBorrow 0xff#8 64 = .ok 255 ∧
      signedByBorrow (BitVec.allOnes 64) 64 = .ok (-1) := by
  obtain ⟨r, dirty, -, only⟩ := signedByBorrow_unique 0xfe09#16 (n := 4) (by decide) (by decide)
  obtain ⟨s, wide, -, only'⟩ := signedByBorrow_unique 0xff#8 (n := 64) (by decide) (by decide)
  obtain ⟨t, full, -, only''⟩ :=
    signedByBorrow_unique (BitVec.allOnes 64) (n := 64) (by decide) (by decide)
  obtain rfl := (only (-7)).1 (by decide)
  obtain rfl := (only' 255).1 (by decide)
  obtain rfl := (only'' (-1)).1 (by decide)
  exact ⟨dirty, wide, full⟩

end Fields

end Bits

end AArch64
