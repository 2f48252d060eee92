import AArch64.Graph.Sampler
import AArch64.Proofs.Selection
import Mathlib.Tactic.Ring

/-!
# Samplers read the slot of a word

The sampler that is chosen for a mask reads, in one of three ways, the bits that the mask selects.
A run of adjacent bits is recognized by its mask, which is one less than a power of two when it is
moved down to bit `0`.

## Main results

* `AArch64.Sampler.read_ofMask` — the checked read of the chosen sampler is the gathered number.
* `AArch64.Sampler.forMask_of_ne_zero` — the checked choice, for a mask that is not zero.
* `AArch64.Sampler.read_forMask` — the full mask overflows; any other reads the gathered word.
-/

set_option autoImplicit false

namespace AArch64

namespace Bits

/-- The lowest set position is the first of the positions. -/
theorem lowest?_eq_head? (n mask : Nat) : lowest? n mask = (positions n mask).head? := by
  induction n generalizing mask with
  | zero => rfl
  | succ n ih =>
    rw [positions_succ]
    rcases Nat.mod_two_eq_zero_or_one mask with h | h <;> simp [lowest?, h, ih]

/-- The lowest bit is one of the bits. -/
theorem lowest?_lt {n mask i : Nat} (h : lowest? n mask = some i) : i < n := by
  rw [lowest?_eq_head?] at h
  exact (mem_positions.1 (List.mem_of_head? h)).1

/-- The lowest position is set, and no position below it is. -/
theorem testBit_of_lowest? {n mask i : Nat} (h : lowest? n mask = some i) :
    mask.testBit i ∧ ∀ j < i, mask.testBit j = false := by
  have lt := lowest?_lt h
  rw [lowest?_eq_head?] at h
  obtain ⟨rest, hpositions⟩ := List.head?_eq_some_iff.1 h
  have increasing := pairwise_positions n mask
  rw [hpositions, List.pairwise_cons] at increasing
  refine ⟨(mem_positions.1 (List.mem_of_head? h)).2, fun j hj => Bool.eq_false_iff.2 fun set => ?_⟩
  have member : j ∈ positions n mask := mem_positions.2 ⟨by omega, set⟩
  rw [hpositions] at member
  rcases List.mem_cons.1 member with rfl | later
  · omega
  · have := increasing.1 j later
    omega

/-- A mask that is not zero has a lowest position. -/
theorem exists_lowest? {n mask : Nat} (hm : mask < 2 ^ n) (h0 : mask ≠ 0) :
    ∃ i, lowest? n mask = some i := by
  obtain ⟨i, hi⟩ := Nat.exists_testBit_of_ne_zero h0
  have hmem : i ∈ positions n mask := mem_positions.2 ⟨?_, hi⟩
  · rw [lowest?_eq_head?]
    cases hp : positions n mask with
    | nil => simp [hp] at hmem
    | cons a _ => exact ⟨a, rfl⟩
  · by_contra hn
    rw [testBit_of_lt hm (Nat.not_lt.1 hn)] at hi
    cases hi

/-- Clear positions below the lowest set one gather nothing. -/
theorem gather_of_lowest? {n value mask s : Nat} (h : lowest? n mask = some s) :
    gather n value mask = gather (n - s) (value / 2 ^ s) (mask / 2 ^ s) := by
  induction n generalizing value mask s with
  | zero => simp [lowest?] at h
  | succ n ih =>
    rcases Nat.mod_two_eq_zero_or_one mask with hm | hm
    · simp only [lowest?, hm] at h
      obtain ⟨s', hs', rfl⟩ := Option.map_eq_some_iff.1 h
      simp only [gather, hm]
      rw [if_neg (by omega), ih hs', Nat.pow_succ, Nat.mul_comm, ← Nat.div_div_eq_div_mul,
        ← Nat.div_div_eq_div_mul, Nat.succ_sub_succ]
    · obtain rfl : s = 0 := by simpa [lowest?, hm, eq_comm] using h
      simp

/-- A mask of the lowest `k` bits gathers these. -/
theorem gather_two_pow_sub_one {n k : Nat} (value : Nat) (hk : k ≤ n) :
    gather n value (2 ^ k - 1) = value % 2 ^ k := by
  induction n generalizing value k with
  | zero =>
    obtain rfl : k = 0 := by omega
    simp [gather, Nat.mod_one]
  | succ n ih =>
    cases k with
    | zero => simpa [gather, Nat.mod_one] using ih (k := 0) (value / 2) (by omega)
    | succ k =>
      have pos : 0 < 2 ^ k := Nat.two_pow_pos k
      have odd : (2 ^ (k + 1) - 1) % 2 = 1 := by rw [Nat.pow_succ]; omega
      have half : (2 ^ (k + 1) - 1) / 2 = 2 ^ k - 1 := by rw [Nat.pow_succ]; omega
      rw [gather, if_pos odd, half, ih _ (by omega), Nat.pow_succ, Nat.mul_comm (2 ^ k),
        Nat.mod_mul]

end Bits

namespace Sampler

open Bits

/-- The one position of a mask with a single bit. -/
theorem sample_bit {mask : Word} {shift : Nat} (h1 : ones 32 mask.toNat = 1)
    (hs : lowest? 32 mask.toNat = some shift) (w : Word) :
    sample (.bit shift) w = Bits.gather 32 w.toNat mask.toNat := by
  have hp : positions 32 mask.toNat = [shift] := by
    rw [← length_positions] at h1
    obtain ⟨p, hp⟩ := List.length_eq_one_iff.1 h1
    rw [lowest?_eq_head?, hp] at hs
    rw [hp, Option.some.inj hs]
  refine Nat.eq_of_testBit_eq fun j => ?_
  rw [testBit_gather, hp, sample, ← BitVec.testBit_toNat]
  cases j with
  | zero => cases h : w.toNat.testBit shift <;> simp [h]
  | succ j => cases w.toNat.testBit shift <;> simp [Nat.testBit_add_one]

/-- A mask that is one run of adjacent bits. -/
theorem sample_field {mask : Word} {shift : Nat} (hs : lowest? 32 mask.toNat = some shift)
    (hrun : mask >>> shift &&& (mask >>> shift + 1) = 0) (w : Word) :
    sample (.field shift (mask >>> shift)) w = Bits.gather 32 w.toNat mask.toNat := by
  set run := mask.toNat / 2 ^ shift with hrundef
  have hlt : shift < 32 := lowest?_lt hs
  have hmask : mask.toNat < 2 ^ 32 := mask.isLt
  have toNat_run : (mask >>> shift).toNat = run := by
    rw [BitVec.toNat_ushiftRight, Nat.shiftRight_eq_div_pow]
  -- the run is one less than a power of two, also where one more than it overflows
  obtain ⟨k, hk⟩ : ∃ k, run = 2 ^ k - 1 := by
    by_cases hfull : run = 2 ^ 32 - 1
    · exact ⟨32, hfull⟩
    · have hrunlt : run < 2 ^ 32 := Nat.lt_of_le_of_lt (Nat.div_le_self _ _) hmask
      have zero : (run + 1) &&& (run + 1 - 1) = 0 := by
        have := congrArg BitVec.toNat hrun
        rw [BitVec.toNat_and, BitVec.toNat_add, toNat_run, show (1 : Word).toNat = 1 from rfl,
          Nat.mod_eq_of_lt (show run + 1 < 2 ^ 32 by omega)] at this
        rw [Nat.add_sub_cancel, Nat.and_comm]
        exact this
      obtain ⟨k, hk⟩ := (Nat.and_sub_one_eq_zero_iff_isPowerOfTwo (by omega)).1 zero
      exact ⟨k, by omega⟩
  have hk32 : k ≤ 32 - shift := by
    have : run < 2 ^ (32 - shift) := by
      rw [hrundef, Nat.div_lt_iff_lt_mul (Nat.two_pow_pos _), ← Nat.pow_add,
        show 32 - shift + shift = 32 by omega]
      exact hmask
    rw [hk] at this
    have : 2 ^ k ≤ 2 ^ (32 - shift) := by omega
    exact (Nat.pow_le_pow_iff_right (by omega)).1 this
  rw [gather_of_lowest? hs, ← hrundef, hk, gather_two_pow_sub_one _ hk32, sample,
    BitVec.toNat_and, toNat_run, hk, BitVec.toNat_ushiftRight, Nat.shiftRight_eq_div_pow,
    Nat.and_two_pow_sub_one_eq_mod]

/-- The sampler chosen for a mask that is not zero reads, without a failed check, the bits that the
mask selects.

**Proof sketch.** The lowest position of the mask is the shift of the first two ways, and lies
inside the word. A mask of one bit has this position only (`sample_bit`), a run of adjacent bits
comes down to the lowest bits (`sample_field`), and the third way is the gather itself. -/
theorem read_ofMask {mask : Word} (h : mask ≠ 0) (w : Word) :
    (ofMask mask).read w = .ok (Bits.gather 32 w.toNat mask.toNat) := by
  have h0 : mask.toNat ≠ 0 := fun h' => h (BitVec.eq_of_toNat_eq (by simpa using h'))
  obtain ⟨shift, hs⟩ := exists_lowest? mask.isLt h0
  have hlt : shift < 32 := lowest?_lt hs
  simp only [ofMask, hs, Option.getD_some]
  split
  · next h1 =>
    simp only [read, Trap.demand, hlt, decide_true, if_true, sample_bit h1 hs w]
    rfl
  · split
    · next hrun =>
      simp only [read, Trap.fits, hlt, decide_true, if_true, sample_field hs hrun w]
      rfl
    · rfl

/-! ## Checked choice -/

/-- One more than a mask moved down to bit `0` leaves 32 bits only if every bit of the mask is
set, since moving down makes a mask no larger. -/
theorem fits_run_iff {mask : Word} {shift : Nat} (hs : lowest? 32 mask.toNat = some shift) :
    (ones 32 mask.toNat = 1 ∨ (mask >>> shift).toNat + 1 < 2 ^ 32) ↔ mask ≠ .allOnes 32 := by
  constructor
  · rintro h rfl
    obtain rfl : shift = 0 := by
      rw [show lowest? 32 (BitVec.allOnes 32).toNat = some 0 by decide] at hs
      exact (Option.some.inj hs).symm
    revert h
    decide
  · intro h
    have hne : mask.toNat ≠ 2 ^ 32 - 1 := fun h' => h (BitVec.eq_of_toNat_eq h')
    have hlt : mask.toNat < 2 ^ 32 := mask.isLt
    have hle : (mask >>> shift).toNat ≤ mask.toNat := by
      rw [BitVec.toNat_ushiftRight, Nat.shiftRight_eq_div_pow]
      exact Nat.div_le_self _ _
    exact .inr (by omega)

/-- The checked choice for a mask that is not zero: the full mask overflows. -/
theorem forMask_of_ne_zero {mask : Word} (h : mask ≠ 0) :
    forMask mask = if mask = .allOnes 32 then .error .overflow else .ok (ofMask mask) := by
  have h0 : mask.toNat ≠ 0 := fun h' => h (BitVec.eq_of_toNat_eq (by simpa using h'))
  obtain ⟨shift, hs⟩ := exists_lowest? mask.isLt h0
  simp only [forMask, Trap.demand, Trap.fits, hs, Option.getD_some, fits_run_iff hs, h, ne_eq,
    not_false_eq_true, decide_true, if_true, decide_not, Bool.not_eq_true', decide_eq_false_iff_not]
  by_cases hfull : mask = .allOnes 32
  · rw [if_neg (not_not.2 hfull), if_pos hfull]
    rfl
  · rw [if_pos hfull, if_neg hfull]
    rfl

/-- Of the masks that are not zero, the full mask has no sampler in checked arithmetic, since one
more than it is taken. Every other mask has one, and whatever way it chose, it reads every word
without a failed check, as the word gathered by the mask. -/
theorem read_forMask {mask : Word} (h : mask ≠ 0) :
    (forMask mask = .error .overflow ↔ mask = .allOnes 32) ∧
      (mask ≠ .allOnes 32 →
        ∃ s, forMask mask = .ok s ∧ ∀ w, s.read w = .ok (gatherWord w mask).toNat) := by
  rw [forMask_of_ne_zero h]
  refine ⟨?_, fun hfull => ⟨ofMask mask, if_neg hfull, fun w => ?_⟩⟩
  · by_cases hfull : mask = .allOnes 32 <;> simp [hfull]
  · rw [read_ofMask h, toNat_gatherWord]

/-- A single bit, a run of bits and scattered bits of one word. -/
theorem read_forMask_ways :
    (∃ s, forMask 0x20000000 = .ok s ∧ s = .bit 29 ∧ s.read 0x3f9c01ff = .ok 1) ∧
    (∃ s, forMask 0x1ffffffe = .ok s ∧ s = .field 1 0xfffffff ∧
      s.read 0x3f9c01ff = .ok 0xfce00ff) ∧
    ∃ s, forMask 0x80400021 = .ok s ∧ s = .gather 0x80400021 ∧ s.read 0x3f9c01ff = .ok 3 := by
  obtain ⟨bit, hbit, readBit⟩ := (@read_forMask 0x20000000 (by decide)).2 (by decide)
  obtain ⟨run, hrun, readRun⟩ := (@read_forMask 0x1ffffffe (by decide)).2 (by decide)
  obtain ⟨scattered, hscattered, readScattered⟩ :=
    (@read_forMask 0x80400021 (by decide)).2 (by decide)
  refine ⟨⟨bit, hbit, ?_, readBit _⟩, ⟨run, hrun, ?_, readRun _⟩, scattered, hscattered, ?_,
    readScattered _⟩
  · exact (Except.ok.inj hbit).symm
  · exact (Except.ok.inj hrun).symm
  · exact (Except.ok.inj hscattered).symm

/-- The full mask is not zero, and has no sampler. -/
theorem forMask_allOnes :
    BitVec.allOnes 32 ≠ 0 ∧ forMask (BitVec.allOnes 32) = .error .overflow ∧
      ¬ ∃ s, forMask (BitVec.allOnes 32) = .ok s := by
  have overflows : forMask (BitVec.allOnes 32) = .error .overflow := by decide
  refine ⟨by decide, overflows, ?_⟩
  rintro ⟨s, hs⟩
  rw [overflows] at hs
  cases hs

end Sampler

end AArch64
