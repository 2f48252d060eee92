import AArch64.Proofs.Pattern
import AArch64.Proofs.RotatedRuns

/-!
# Slots are counted up

The slots of a mask and a value differ in the bits that the mask leaves free. They can be listed
without looking at any other number: a choice of values for the free bits is followed by the one
that comes out of subtracting the free bits, in arithmetic that wraps around, and of dropping the
bits that are not free. The list starts with no free bit set and ends with all of them set.

## Main definitions

* `AArch64.Choice` — values for free bits.
* `AArch64.Choice.next?`, `AArch64.Choice.upward` — one step, and all steps from a choice on.
* `AArch64.Choice.rank` — the number that the free bits of a choice form.
* `AArch64.Pattern.freeBits`, `AArch64.Pattern.countUp` — the slots of a mask and a value, listed by
  counting in the free bits.

## Main results

* `AArch64.Choice.rank_of_next?` — a step adds one to the rank.
* `AArch64.Choice.map_rank_upward` — the steps visit all ranks from the first one on.
* `AArch64.Pattern.countUp_eq_slots` — counting lists the slots, as does recursion on the width.
* `AArch64.Pattern.countUp_exact` — which slots are listed, in which order, and how many.

## Implementation notes

The rank of a choice is what the free bits gather from it. Subtracting the free bits adds one and
the bits that are not free; these are all set in between, so the carry runs over them, and gathering
does not see them.
-/

set_option autoImplicit false

namespace AArch64

namespace Bits

/-! ## Counting at selected positions -/

/-- Setting all other bits changes nothing that is gathered. -/
theorem gather_scatter_add_others {n mask : Nat} (value : Nat) (hm : mask < 2 ^ n) :
    gather n (scatter n value mask + (2 ^ n - 1 - mask)) mask = value % 2 ^ ones n mask := by
  induction n generalizing value mask with
  | zero => simp [gather, ones, Nat.mod_one]
  | succ n ih =>
    have hm' : mask / 2 < 2 ^ n := by rw [Nat.pow_succ] at hm; omega
    have pow : 2 ^ (n + 1) = 2 * 2 ^ n := Nat.pow_succ'
    rcases Nat.mod_two_eq_zero_or_one mask with h | h
    · have half : (2 * scatter n value (mask / 2) + (2 ^ (n + 1) - 1 - mask)) / 2 =
          scatter n value (mask / 2) + (2 ^ n - 1 - mask / 2) := by omega
      simp [gather, scatter, ones, h, half, ih value hm']
    · have low : (value % 2 + 2 * scatter n (value / 2) (mask / 2) +
          (2 ^ (n + 1) - 1 - mask)) % 2 = value % 2 := by omega
      have half : (value % 2 + 2 * scatter n (value / 2) (mask / 2) +
          (2 ^ (n + 1) - 1 - mask)) / 2 =
            scatter n (value / 2) (mask / 2) + (2 ^ n - 1 - mask / 2) := by omega
      simp only [gather, scatter, ones, h, if_true, low, half, ih (value / 2) hm']
      rw [Nat.add_comm 1, Nat.pow_succ, Nat.mul_comm (2 ^ _) 2, Nat.mod_mul]

/-- Adding one at the selected positions: subtracting the mask sets all other bits and adds one. -/
theorem gather_scatter_add_sub {n mask : Nat} (value : Nat) (hm : mask < 2 ^ n) :
    gather n (scatter n value mask + (2 ^ n - mask)) mask = (value + 1) % 2 ^ ones n mask := by
  induction n generalizing value mask with
  | zero => simp [gather, ones, Nat.mod_one]
  | succ n ih =>
    have hm' : mask / 2 < 2 ^ n := by rw [Nat.pow_succ] at hm; omega
    have pow : 2 ^ (n + 1) = 2 * 2 ^ n := Nat.pow_succ'
    rcases Nat.mod_two_eq_zero_or_one mask with h | h
    · have half : (2 * scatter n value (mask / 2) + (2 ^ (n + 1) - mask)) / 2 =
          scatter n value (mask / 2) + (2 ^ n - mask / 2) := by omega
      simp [gather, scatter, ones, h, half, ih value hm']
    · have split : 2 ^ ones (n + 1) mask = 2 * 2 ^ ones n (mask / 2) := by
        rw [ones, h, Nat.add_comm, Nat.pow_succ']
      simp only [gather, scatter, h, if_true, split]
      rcases Nat.mod_two_eq_zero_or_one value with even | odd
      · -- no carry leaves the lowest selected bit
        have low : (value % 2 + 2 * scatter n (value / 2) (mask / 2) +
            (2 ^ (n + 1) - mask)) % 2 = 1 := by omega
        have half : (value % 2 + 2 * scatter n (value / 2) (mask / 2) +
            (2 ^ (n + 1) - mask)) / 2 =
              scatter n (value / 2) (mask / 2) + (2 ^ n - 1 - mask / 2) := by omega
        rw [low, half, gather_scatter_add_others _ hm', Nat.mod_mul,
          show (value + 1) % 2 = 1 by omega, show (value + 1) / 2 = value / 2 by omega]
      · have low : (value % 2 + 2 * scatter n (value / 2) (mask / 2) +
            (2 ^ (n + 1) - mask)) % 2 = 0 := by omega
        have half : (value % 2 + 2 * scatter n (value / 2) (mask / 2) +
            (2 ^ (n + 1) - mask)) / 2 =
              scatter n (value / 2) (mask / 2) + (2 ^ n - mask / 2) := by omega
        rw [low, half, ih _ hm', Nat.mod_mul, show (value + 1) % 2 = 0 by omega,
          show (value + 1) / 2 = value / 2 + 1 by omega]

/-- Positions beyond a number add nothing to its ones. -/
theorem ones_of_lt {n k value : Nat} (hn : n ≤ k) (hvalue : value < 2 ^ n) :
    ones k value = ones n value := by
  obtain ⟨d, rfl⟩ := Nat.exists_eq_add_of_le hn
  have none : ones d 0 = 0 := RotatedRun.ones_two_pow_sub_one (Nat.zero_le d)
  rw [RotatedRun.ones_add, Nat.div_eq_of_lt hvalue, none, Nat.add_zero]

/-- Bits outside of the mask are not gathered. -/
theorem gather_and_mask {n mask : Nat} (value : Nat) (hm : mask < 2 ^ n) :
    gather n (value &&& mask) mask = gather n value mask := by
  have small : value &&& mask < 2 ^ n := Nat.lt_of_le_of_lt Nat.and_le_right hm
  rw [← Nat.mod_eq_of_lt small, ← scatter_gather, gather_scatter,
    Nat.mod_eq_of_lt (gather_lt n value mask)]

/-- All selected bits together. -/
theorem gather_self (n mask : Nat) : gather n mask mask + 1 = 2 ^ ones n mask := by
  induction n generalizing mask with
  | zero => rfl
  | succ n ih =>
    have := ih (mask / 2)
    rcases Nat.mod_two_eq_zero_or_one mask with h | h
    · simpa [gather, ones, h] using this
    · simp only [gather, ones, h, if_true, Nat.add_comm 1, Nat.pow_succ]
      omega

/-- Scattering keeps the order of the numbers that the mask has room for. -/
theorem scatter_lt_scatter {n a b mask : Nat} (hab : a < b) (hb : b < 2 ^ ones n mask) :
    scatter n a mask < scatter n b mask := by
  induction n generalizing a b mask with
  | zero =>
    rw [ones, Nat.pow_zero] at hb
    omega
  | succ n ih =>
    rcases Nat.mod_two_eq_zero_or_one mask with h | h
    · simp only [ones, h, Nat.zero_add] at hb
      have := ih hab hb
      rw [scatter, scatter, if_neg (by omega), if_neg (by omega)]
      omega
    · simp only [ones, h, Nat.add_comm 1, Nat.pow_succ] at hb
      simp only [scatter, h, if_true]
      by_cases same : a / 2 = b / 2
      · rw [same]
        omega
      · have halves : scatter n (a / 2) (mask / 2) < scatter n (b / 2) (mask / 2) :=
          ih (by omega) (by omega)
        omega

end Bits

/-! ## Choices -/

/-- Values for the free bits of a number. The other bits are clear. -/
structure Choice (free : Word) where
  /-- The free bits that are set. -/
  bits : Word
  bits_and_free : bits &&& free = bits

namespace Choice

variable {free : Word}

/-- No free bit is set. -/
def least (free : Word) : Choice free where
  bits := 0
  bits_and_free := BitVec.zero_and

/-- The choice after this one. After the choice of all free bits there is none. -/
def next? (c : Choice free) : Option (Choice free) :=
  if c.bits = free then none
  else some {
    bits := (c.bits - free) &&& free
    bits_and_free := by rw [BitVec.and_assoc, BitVec.and_self] }

/-- The number that the free bits form, the lowest first. -/
def rank (c : Choice free) : Nat :=
  Bits.gather 32 c.bits.toNat free.toNat

/-- There are as many ranks as there are choices. -/
theorem rank_lt (c : Choice free) : c.rank < 2 ^ Bits.ones 32 free.toNat :=
  Bits.gather_lt 32 _ _

/-- A choice, as a number, has no bits that are not free. -/
theorem toNat_and_free (c : Choice free) : c.bits.toNat &&& free.toNat = c.bits.toNat := by
  rw [← BitVec.toNat_and, c.bits_and_free]

/-- A choice is its rank, scattered over the free bits. -/
theorem scatter_rank (c : Choice free) :
    Bits.scatter 32 c.rank free.toNat = c.bits.toNat := by
  rw [rank, Bits.scatter_gather, c.toNat_and_free, Nat.mod_eq_of_lt c.bits.isLt]

/-- A choice is known by its rank. -/
theorem eq_of_rank_eq {c d : Choice free} (h : c.rank = d.rank) : c = d := by
  have bits : c.bits = d.bits := BitVec.eq_of_toNat_eq (by
    rw [← c.scatter_rank, h, d.scatter_rank])
  cases c
  cases d
  simpa using bits

/-- A choice of greater rank is a greater number. -/
theorem toNat_lt_of_rank_lt {c d : Choice free} (h : c.rank < d.rank) :
    c.bits.toNat < d.bits.toNat := by
  rw [← c.scatter_rank, ← d.scatter_rank]
  exact Bits.scatter_lt_scatter h d.rank_lt

/-! ### One step -/

/-- There is no step exactly from the last rank. -/
theorem next?_eq_none_iff (c : Choice free) :
    c.next? = none ↔ c.rank + 1 = 2 ^ Bits.ones 32 free.toNat := by
  have all := Bits.gather_self 32 free.toNat
  have next : c.next? = none ↔ c.bits = free := by simp [next?]
  rw [next, ← all, Nat.add_right_cancel_iff]
  constructor
  · intro h
    rw [rank, h]
  · intro h
    refine BitVec.eq_of_toNat_eq (Bits.eq_of_gather_eq free.isLt c.toNat_and_free ?_ h)
    exact Nat.and_self _

/-- A step adds one to the rank.

**Proof sketch.** The choice is its rank, scattered over the free bits. Subtracting the free bits is
adding one where they are selected (`Bits.gather_scatter_add_sub`), and since the last rank is
followed by nothing, the sum has room. -/
theorem rank_of_next? {c d : Choice free} (h : c.next? = some d) : d.rank = c.rank + 1 := by
  have room : c.rank + 1 < 2 ^ Bits.ones 32 free.toNat := by
    have last := mt c.next?_eq_none_iff.2 (by rw [h]; simp)
    have := c.rank_lt
    omega
  have bits : d.bits = (c.bits - free) &&& free := by
    simp only [next?] at h
    split at h
    · cases h
    · rw [← Option.some.inj h]
  have wrapped : d.bits.toNat = (c.bits.toNat + (2 ^ 32 - free.toNat)) &&& free.toNat := by
    calc d.bits.toNat
        = (c.bits.toNat + (2 ^ 32 - free.toNat)) % 2 ^ 32 &&& free.toNat := by
          rw [bits, BitVec.toNat_and, BitVec.toNat_sub, Nat.add_comm c.bits.toNat]
      _ = ((c.bits.toNat + (2 ^ 32 - free.toNat)) &&& free.toNat) % 2 ^ 32 := by
          rw [Nat.and_mod_two_pow, Nat.mod_eq_of_lt free.isLt]
      _ = (c.bits.toNat + (2 ^ 32 - free.toNat)) &&& free.toNat :=
          Nat.mod_eq_of_lt (Nat.lt_of_le_of_lt Nat.and_le_right free.isLt)
  rw [rank, wrapped, Bits.gather_and_mask _ free.isLt, ← c.scatter_rank,
    Bits.gather_scatter_add_sub _ free.isLt, Nat.mod_eq_of_lt room]

/-! ### All steps -/

/-- A choice and all that follow it. Every step leaves fewer ranks above. -/
def upward (c : Choice free) : List (Choice free) :=
  match _ : c.next? with
  | none => [c]
  | some d => c :: d.upward
termination_by 2 ^ Bits.ones 32 free.toNat - c.rank
decreasing_by
  have := rank_of_next? ‹c.next? = some d›
  have := d.rank_lt
  omega

/-- The steps from a choice on visit its rank and all greater ones, in order. -/
theorem map_rank_upward (c : Choice free) :
    c.upward.map rank = List.range' c.rank (2 ^ Bits.ones 32 free.toNat - c.rank) := by
  induction c using upward.induct with
  | case1 c h =>
    have last := c.next?_eq_none_iff.1 h
    rw [upward, h, show 2 ^ Bits.ones 32 free.toNat - c.rank = 1 by omega]
    rfl
  | case2 c d h ih =>
    have next := rank_of_next? h
    have lt := d.rank_lt
    rw [upward, h]
    simp only [List.map_cons, ih, next]
    rw [show 2 ^ Bits.ones 32 free.toNat - c.rank =
      2 ^ Bits.ones 32 free.toNat - (c.rank + 1) + 1 by omega, List.range'_succ]

/-- The least choice has the least rank. -/
theorem rank_least : (least free).rank = 0 := by
  refine Nat.eq_of_testBit_eq fun j => ?_
  rw [rank, Bits.testBit_gather, Nat.zero_testBit]
  cases (Bits.positions 32 free.toNat)[j]? <;> simp [least]

/-- Upward from the least choice there is every choice. -/
theorem mem_upward_least (c : Choice free) : c ∈ (least free).upward := by
  have visited : c.rank ∈ (least free).upward.map rank := by
    rw [map_rank_upward, rank_least, Nat.sub_zero, List.mem_range'_1, Nat.zero_add]
    exact ⟨Nat.zero_le _, c.rank_lt⟩
  obtain ⟨d, hd, same⟩ := List.mem_map.1 visited
  rwa [← eq_of_rank_eq same]

/-- Upward the choices are ever greater numbers. -/
theorem pairwise_upward (c : Choice free) :
    c.upward.Pairwise fun d e => d.bits.toNat < e.bits.toNat := by
  have ranks : (c.upward.map rank).Pairwise (· < ·) := by
    rw [map_rank_upward]
    exact List.pairwise_lt_range'
  exact (List.pairwise_map.1 ranks).imp toNat_lt_of_rank_lt

end Choice

/-! ## Slots -/

namespace Pattern

/-- The bits of slots of `width` bits that a mask leaves free. -/
def freeBits (mask : Word) (width : Nat) : Word :=
  ~~~mask &&& if 32 ≤ width then BitVec.allOnes 32 else (1 : Word) <<< width - 1

/-- The slots of a mask and a value, by counting in the free bits. -/
def countUp (mask value : Word) (width : Nat) : List Nat :=
  (Choice.least (freeBits mask width)).upward.map fun c => (value ||| c.bits).toNat

section Counting

variable {mask value : Word} {width : Nat}

/-- The free bits are those below the width that are not in the mask. -/
theorem testBit_freeBits (hwidth : width ≤ 32) (j : Nat) :
    (freeBits mask width).toNat.testBit j = (decide (j < width) && !mask.toNat.testBit j) := by
  have full : (if 32 ≤ width then BitVec.allOnes 32 else (1 : Word) <<< width - 1).toNat =
      2 ^ width - 1 := by
    split
    · obtain rfl : width = 32 := by omega
      rfl
    · have lt : 2 ^ width < 2 ^ 32 := Nat.pow_lt_pow_right (by omega) (by omega)
      have pos : 0 < 2 ^ width := Nat.two_pow_pos width
      rw [BitVec.toNat_sub, BitVec.toNat_shiftLeft, show (1 : Word).toNat = 1 from rfl,
        Nat.one_shiftLeft]
      omega
  rw [freeBits, BitVec.toNat_and, full, Nat.testBit_and, Nat.testBit_two_pow_sub_one,
    BitVec.testBit_toNat, BitVec.getLsbD_not, BitVec.testBit_toNat]
  by_cases hj : j < width
  · simp [hj, show j < 32 by omega]
  · simp [hj]

/-- Counting lists the numbers of `width` bits that have the bits of the value wherever the mask is
set. -/
theorem mem_countUp (hwidth : width ≤ 32) (hmask : mask.toNat < 2 ^ width)
    (hvalue : value &&& mask = value) {i : Nat} :
    i ∈ countUp mask value width ↔ i < 2 ^ width ∧ i &&& mask.toNat = value.toNat := by
  have above : ∀ j, width ≤ j → mask.toNat.testBit j = false := fun _ => Bits.testBit_of_lt hmask
  have bits : ∀ j, value.toNat.testBit j = (value.toNat.testBit j && mask.toNat.testBit j) :=
    Bits.testBit_of_and_eq (by rw [← BitVec.toNat_and, hvalue])
  rw [countUp, List.mem_map]
  constructor
  · rintro ⟨c, -, rfl⟩
    have choice := Bits.testBit_of_and_eq c.toNat_and_free
    simp only [testBit_freeBits hwidth] at choice
    rw [BitVec.toNat_or]
    refine ⟨Nat.lt_pow_two_of_testBit _ fun j hj => ?_, Nat.eq_of_testBit_eq fun j => ?_⟩
    · have := above j hj
      have := bits j
      have := choice j
      grind
    · have := bits j
      have := choice j
      grind
  · rintro ⟨hlt, heq⟩
    have word : (BitVec.ofNat 32 i).toNat = i := by
      rw [BitVec.toNat_ofNat, Nat.mod_eq_of_lt]
      exact Nat.lt_of_lt_of_le hlt (Nat.pow_le_pow_right (by omega) hwidth)
    refine ⟨⟨BitVec.ofNat 32 i &&& freeBits mask width, by rw [BitVec.and_assoc, BitVec.and_self]⟩,
      Choice.mem_upward_least _, Nat.eq_of_testBit_eq fun j => ?_⟩
    have masked : (i.testBit j && mask.toNat.testBit j) = value.toNat.testBit j := by
      rw [← Nat.testBit_and, heq]
    have short : width ≤ j → i.testBit j = false := Bits.testBit_of_lt hlt
    rw [BitVec.toNat_or, BitVec.toNat_and, word, Nat.testBit_or, Nat.testBit_and,
      testBit_freeBits hwidth]
    grind

/-- The value has no free bit. -/
theorem toNat_value_or (hvalue : value &&& mask = value) (c : Choice (freeBits mask width)) :
    (value ||| c.bits).toNat = value.toNat + c.bits.toNat := by
  have apart : ∀ b : Word, (value &&& mask) &&& (b &&& freeBits mask width) = 0#32 := by
    intro b
    refine BitVec.eq_of_getLsbD_eq fun j _ => ?_
    simp only [freeBits, BitVec.getLsbD_and, BitVec.getLsbD_not, BitVec.getLsbD_zero]
    cases mask.getLsbD j <;> simp
  have disjoint : value &&& c.bits = 0#32 := by
    have := apart c.bits
    rwa [hvalue, c.bits_and_free] at this
  rw [← BitVec.add_eq_or_of_and_eq_zero _ _ disjoint, BitVec.toNat_add_of_and_eq_zero disjoint]

/-- Counting lists ever greater slots. -/
theorem pairwise_countUp (hvalue : value &&& mask = value) :
    (countUp mask value width).Pairwise (· < ·) := by
  refine List.pairwise_map.2 ((Choice.pairwise_upward _).imp fun {c d} h => ?_)
  rw [toNat_value_or hvalue, toNat_value_or hvalue]
  exact Nat.add_lt_add_left h _

end Counting

/-! ## Recursion on the width -/

/-- The slots are in ascending order. -/
theorem pairwise_slots (mask value width : Nat) :
    (slots mask value width).Pairwise (· < ·) := by
  induction width with
  | zero => exact List.pairwise_singleton _ _
  | succ n ih =>
    have upper : ((slots mask value n).map (· + 2 ^ n)).Pairwise (· < ·) :=
      List.pairwise_map.2 (ih.imp fun h => Nat.add_lt_add_right h _)
    simp only [slots]
    split
    · split
      · exact upper
      · exact ih
    · refine List.pairwise_append.2 ⟨ih, upper, fun a ha b hb => ?_⟩
      obtain ⟨c, -, rfl⟩ := List.mem_map.1 hb
      have := (mem_slots.1 ha).1
      omega

/-- Every bit that the mask leaves free doubles the slots. -/
theorem length_slots (mask value width : Nat) :
    (slots mask value width).length = 2 ^ (width - Bits.ones width mask) := by
  induction width with
  | zero => rfl
  | succ n ih =>
    have le := RotatedRun.ones_le n mask
    have top : Bits.ones (n + 1) mask = Bits.ones n mask + (mask.testBit n).toNat := by
      rw [RotatedRun.ones_add, Bits.ones, Bits.ones, Nat.add_zero, ← Nat.toNat_testBit]
    simp only [slots, top]
    cases mask.testBit n with
    | true =>
      simp only [if_true, apply_ite List.length, List.length_map, ite_self, ih]
      rw [Bool.toNat_true, Nat.add_sub_add_right]
    | false =>
      simp only [Bool.false_eq_true, if_false, List.length_append, List.length_map, ih]
      rw [Bool.toNat_false, show n + 1 - (Bits.ones n mask + 0) = n - Bits.ones n mask + 1 by omega,
        Nat.pow_succ, Nat.mul_two]

/-- Counting in the free bits lists the slots that recursion on the width lists. -/
theorem countUp_eq_slots {mask value : Word} {width : Nat} (hwidth : width ≤ 32)
    (hmask : mask.toNat < 2 ^ width) (hvalue : value &&& mask = value) :
    countUp mask value width = slots mask.toNat value.toNat width := by
  have hvalue' : value.toNat &&& mask.toNat = value.toNat := by
    rw [← BitVec.toNat_and, hvalue]
  refine (pairwise_countUp hvalue).eq_of_mem_iff (pairwise_slots _ _ _) fun i => ?_
  rw [mem_countUp hwidth hmask hvalue, mem_slots_iff_and_eq hmask hvalue']

/-- Counting in the free bits ends, and lists the slots of a table: exactly the numbers of `width`
bits with the masked bits of the value, each once and in increasing order, as many as there are
values for the bits outside of the mask. -/
theorem countUp_exact {mask value : Word} {width : Nat} (hwidth : width ≤ 32)
    (hmask : mask.toNat < 2 ^ width) (hvalue : value &&& mask = value) :
    slots mask.toNat value.toNat width = countUp mask value width ∧
      (∀ i, i ∈ countUp mask value width ↔ i < 2 ^ width ∧ i &&& mask.toNat = value.toNat) ∧
      (countUp mask value width).Pairwise (· < ·) ∧
      (countUp mask value width).length = 2 ^ (width - Bits.ones 32 mask.toNat) := by
  have same := countUp_eq_slots hwidth hmask hvalue
  refine ⟨same.symm, fun i => mem_countUp hwidth hmask hvalue, pairwise_countUp hvalue, ?_⟩
  rw [same, length_slots, Bits.ones_of_lt hwidth hmask]

/-- All 32 bits of a slot, of which two are fixed next to each other, and all three bits of a
slot. -/
theorem countUp_exact_full :
    (countUp 0xc 0x8 32).length = 2 ^ 30 ∧ 0xfffffffb ∈ countUp 0xc 0x8 32 ∧
      countUp 0b111 0b101 3 = [0b101] := by
  obtain ⟨-, mem, -, length⟩ := @countUp_exact 0xc 0x8 32 (by decide) (by decide) (by decide)
  obtain ⟨same, -⟩ := @countUp_exact 0b111 0b101 3 (by decide) (by decide) (by decide)
  exact ⟨length, (mem _).2 (by decide), same.symm⟩

end Pattern

end AArch64
