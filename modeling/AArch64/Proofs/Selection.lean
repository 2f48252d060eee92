import AArch64.Bits
import Mathlib.Data.List.Basic
import Mathlib.Tactic.Common

/-!
# Selected bits, one by one

`Bits.gather` and `Bits.scatter` recurse on the mask. Here they are described by the list of the
set positions of the mask: bit `j` of a gathered number is the bit at the `j`-th position. This is
the form in which the slot of a word is compared with a pattern.

## Main definitions

* `AArch64.Bits.positions` — the set positions of a mask, in increasing order.

## Main results

* `AArch64.Bits.testBit_gather`, `AArch64.Bits.testBit_scatter_iff` — the bits of a gathered and of
  a scattered number.
* `AArch64.Bits.gather_and` — gathering commutes with conjunction.
* `AArch64.Bits.and_scatter_eq_scatter_iff` — comparing masked bits of a word is comparing masked
  bits of its gathered number.
-/

set_option autoImplicit false

namespace AArch64

namespace Bits

/-! ## Bits of bounded and of masked numbers -/

/-- A number has no bits from its width on. -/
theorem testBit_of_lt {n x i : Nat} (hx : x < 2 ^ n) (hi : n ≤ i) : x.testBit i = false :=
  Nat.testBit_lt_two_pow (Nat.lt_of_lt_of_le hx (Nat.pow_le_pow_right (by omega) hi))

/-- A number without bits outside of a mask has bits where the mask has bits. -/
theorem testBit_of_and_eq {x mask : Nat} (h : x &&& mask = x) (i : Nat) :
    x.testBit i = (x.testBit i && mask.testBit i) := by
  rw [← Nat.testBit_and, h]

/-! ## Positions -/

/-- The set positions of `mask` below `n`, in increasing order. -/
def positions (n mask : Nat) : List Nat :=
  (List.range n).filter mask.testBit

/-- The positions of a mask are those of its upper bits, one further, behind `0` if it is odd. -/
theorem positions_succ (n mask : Nat) :
    positions (n + 1) mask =
      (if mask % 2 = 1 then [0] else []) ++ (positions n (mask / 2)).map (· + 1) := by
  have upper : ((List.range n).map Nat.succ).filter mask.testBit =
      (positions n (mask / 2)).map (· + 1) := by
    rw [List.filter_map]
    congr 1
    exact List.filter_congr fun i _ => by simp [Nat.testBit_add_one]
  rw [positions, List.range_succ_eq_map, List.filter_cons, upper]
  by_cases h : mask % 2 = 1 <;> simp [h]

/-- The positions are those of the bits that are set. -/
theorem mem_positions {n mask i : Nat} : i ∈ positions n mask ↔ i < n ∧ mask.testBit i := by
  simp [positions]

/-- There are as many positions as bits that are set. -/
theorem length_positions (n mask : Nat) : (positions n mask).length = ones n mask := by
  induction n generalizing mask with
  | zero => simp [positions, ones]
  | succ n ih =>
    rw [positions_succ, List.length_append, List.length_map, ih, ones]
    rcases Nat.mod_two_eq_zero_or_one mask with h | h <;> simp [h]

/-- Positions increase strictly. -/
theorem pairwise_positions (n mask : Nat) : (positions n mask).Pairwise (· < ·) :=
  List.pairwise_lt_range.filter _

/-- A number has no set positions beyond its length. -/
theorem positions_of_lt {w n mask : Nat} (hw : w ≤ n) (hmask : mask < 2 ^ w) :
    positions n mask = positions w mask := by
  obtain ⟨d, rfl⟩ := Nat.exists_eq_add_of_le hw
  have none : ((List.range d).map (w + ·)).filter mask.testBit = [] := by
    simp only [List.filter_eq_nil_iff, List.mem_map]
    rintro _ ⟨i, -, rfl⟩
    simp [testBit_of_lt hmask (Nat.le_add_right w i)]
  rw [positions, List.range_add, List.filter_append, none, List.append_nil, positions]

/-! ## Gathering -/

/-- Bit `j` of a gathered number is the bit at the `j`-th set position of the mask. Beyond the last
position it is clear. -/
theorem testBit_gather (n value mask j : Nat) :
    (gather n value mask).testBit j =
      (((positions n mask)[j]?).map value.testBit).getD false := by
  induction n generalizing value mask j with
  | zero => simp [gather, positions]
  | succ n ih =>
    have lower : ∀ j, (gather n (value / 2) (mask / 2)).testBit j =
        ((((positions n (mask / 2)).map (· + 1))[j]?).map value.testBit).getD false := by
      intro j
      have shifted : value.testBit ∘ (· + 1) = (value / 2).testBit :=
        funext fun i => Nat.testBit_add_one value i
      rw [ih, List.getElem?_map, Option.map_map, shifted]
    rw [positions_succ]
    rcases Nat.mod_two_eq_zero_or_one mask with h | h
    · simpa [gather, h] using lower j
    · cases j with
      | zero => simp [gather, h, Nat.add_mod, Nat.mul_mod_right]
      | succ j =>
        have half : (value % 2 + 2 * gather n (value / 2) (mask / 2)) / 2 =
            gather n (value / 2) (mask / 2) := by omega
        simpa [gather, h, Nat.testBit_add_one, half] using lower j

/-- A gathered number has one bit for each set position. -/
theorem gather_lt (n value mask : Nat) : gather n value mask < 2 ^ ones n mask := by
  refine Nat.lt_pow_two_of_testBit _ fun j hj => ?_
  rw [testBit_gather, List.getElem?_eq_none (by rwa [length_positions])]
  rfl

/-- Gathering makes no number longer. -/
theorem gather_lt_two_pow (n value mask : Nat) : gather n value mask < 2 ^ n := by
  have few : ones n mask ≤ n := by
    have := List.length_filter_le mask.testBit (List.range n)
    rwa [List.length_range, ← positions, length_positions] at this
  exact Nat.lt_of_lt_of_le (gather_lt n value mask) (Nat.pow_le_pow_right (by omega) few)

/-- A gathered word, as a number. -/
theorem toNat_gatherWord {w : Nat} (value mask : BitVec w) :
    (gatherWord value mask).toNat = gather w value.toNat mask.toNat := by
  rw [gatherWord, BitVec.toNat_ofNat, Nat.mod_eq_of_lt (gather_lt_two_pow _ _ _)]

/-- Gathering goes with conjunction. -/
theorem gather_and (n a b mask : Nat) :
    gather n (a &&& b) mask = gather n a mask &&& gather n b mask := by
  refine Nat.eq_of_testBit_eq fun j => ?_
  rw [Nat.testBit_and]
  simp only [testBit_gather]
  cases (positions n mask)[j]? <;> simp

/-! ## Scattering -/

/-- A scattered number has bits at the positions of the mask only. -/
theorem scatter_and_mask (n value mask : Nat) (hm : mask < 2 ^ n) :
    scatter n value mask &&& mask = scatter n value mask := by
  induction n generalizing value mask with
  | zero => simp [scatter]
  | succ n ih =>
    have hm' : mask / 2 < 2 ^ n := by rw [Nat.pow_succ] at hm; omega
    refine Nat.eq_of_testBit_eq fun j => ?_
    rw [Nat.testBit_and]
    rcases Nat.mod_two_eq_zero_or_one mask with h | h
    · have half : scatter (n + 1) value mask / 2 = scatter n value (mask / 2) := by
        simp [scatter, h]
      cases j with
      | zero => simp [scatter, h]
      | succ j => rw [Nat.testBit_add_one, Nat.testBit_add_one, half, ← Nat.testBit_and, ih _ _ hm']
    · have half : scatter (n + 1) value mask / 2 = scatter n (value / 2) (mask / 2) := by
        simp only [scatter, h, if_true]; omega
      cases j with
      | zero => simp [h]
      | succ j => rw [Nat.testBit_add_one, Nat.testBit_add_one, half, ← Nat.testBit_and, ih _ _ hm']

/-- Scattering stays within the mask, so it makes no word longer. -/
theorem scatter_lt_two_pow {n mask : Nat} (value : Nat) (hm : mask < 2 ^ n) :
    scatter n value mask < 2 ^ n := by
  rw [← scatter_and_mask n value mask hm]
  exact Nat.lt_of_le_of_lt Nat.and_le_right hm

/-- A scattered word, as a number. -/
theorem toNat_scatterWord {w : Nat} (value mask : BitVec w) :
    (scatterWord value mask).toNat = scatter w value.toNat mask.toNat := by
  rw [scatterWord, BitVec.toNat_ofNat, Nat.mod_eq_of_lt (scatter_lt_two_pow _ mask.isLt)]

/-- A scattered number has bit `j` at the `j`-th set position of the mask, and no other bits. -/
theorem testBit_scatter_iff {n mask : Nat} (value : Nat) (hm : mask < 2 ^ n) (i : Nat) :
    (scatter n value mask).testBit i ↔ ∃ j, (positions n mask)[j]? = some i ∧ value.testBit j := by
  have placed : ∀ {j}, (positions n mask)[j]? = some i →
      (scatter n value mask).testBit i = value.testBit j := by
    intro j hj
    have room : j < ones n mask := by
      rw [← length_positions]
      exact (List.getElem?_eq_some_iff.1 hj).1
    have gathered := testBit_gather n (scatter n value mask) mask j
    rwa [gather_scatter, Nat.testBit_mod_two_pow, decide_eq_true room, Bool.true_and, hj,
      Option.map_some, Option.getD_some, eq_comm] at gathered
  constructor
  · intro hset
    have inside : mask.testBit i := by
      have masked := hset
      rw [← scatter_and_mask n value mask hm, Nat.testBit_and, Bool.and_eq_true] at masked
      exact masked.2
    have short : i < n := by
      by_contra hn
      rw [testBit_of_lt hm (Nat.not_lt.1 hn)] at inside
      cases inside
    obtain ⟨j, hj⟩ := List.mem_iff_getElem?.1 (mem_positions.2 ⟨short, inside⟩)
    exact ⟨j, hj, placed hj ▸ hset⟩
  · rintro ⟨j, hj, hset⟩
    rw [placed hj, hset]

/-- A number with bits at the positions of the mask only is determined by what is gathered from
it. -/
theorem eq_of_gather_eq {n a b mask : Nat} (hm : mask < 2 ^ n) (ha : a &&& mask = a)
    (hb : b &&& mask = b) (h : gather n a mask = gather n b mask) : a = b := by
  have lt : ∀ {x : Nat}, x &&& mask = x → x < 2 ^ n := fun {x} hx =>
    hx ▸ Nat.lt_of_le_of_lt Nat.and_le_right hm
  calc a = (a &&& mask) % 2 ^ n := by rw [ha, Nat.mod_eq_of_lt (lt ha)]
    _ = (b &&& mask) % 2 ^ n := by rw [← scatter_gather, h, scatter_gather]
    _ = b := by rw [hb, Nat.mod_eq_of_lt (lt hb)]

/-- Whether the bits of a word selected by a scattered mask are those of a scattered value can be
read off the gathered number.

**Proof sketch.** Both sides of the first equation have bits at the positions of `mask` only, so
they are equal if what is gathered from them is (`eq_of_gather_eq`). Gathering commutes with
conjunction, and gives back what was scattered. -/
theorem and_scatter_eq_scatter_iff {n word mask : Nat} (hm : mask < 2 ^ n) {m v : Nat}
    (hmlt : m < 2 ^ ones n mask) (hvlt : v < 2 ^ ones n mask) :
    word &&& scatter n m mask = scatter n v mask ↔ gather n word mask &&& m = v := by
  have gathered : ∀ {x}, x < 2 ^ ones n mask → gather n (scatter n x mask) mask = x := by
    intro x hx
    rw [gather_scatter, Nat.mod_eq_of_lt hx]
  constructor
  · intro h
    have := congrArg (gather n · mask) h
    simpa only [gather_and, gathered hmlt, gathered hvlt] using this
  · intro h
    refine eq_of_gather_eq hm ?_ (scatter_and_mask n v mask hm) ?_
    · rw [Nat.and_assoc, scatter_and_mask n m mask hm]
    · rw [gather_and, gathered hmlt, gathered hvlt, h]

end Bits

end AArch64
