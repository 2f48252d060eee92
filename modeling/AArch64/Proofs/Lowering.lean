import AArch64.Proofs.Sampler
import AArch64.Proofs.Walk
import Mathlib.Data.Finset.Card
import Mathlib.Data.Finset.Range

/-!
# Lowering a table preserves its dispatch

A filled table becomes a cell, or is replaced by its only child. Either way a word goes on to the
child of its slot. The interesting case is a table with two children, one of which takes the slots
of a sub-cube: the test on the word decides whether the slot lies in the sub-cube.

## Main definitions

* `AArch64.SubCube.varying`, `AArch64.SubCube.fixed` — where slots differ, and where they agree.
* `AArch64.Lowered.Dispatches` — the result of lowering sends a word to a child.

## Main results

* `AArch64.SubCube.and_mask_eq_value_iff` — a sub-cube that is found has the given slots.
* `AArch64.SubCube.isSome_of?_iff` — slots that form a sub-cube are found to form one.
* `AArch64.Lowered.dispatches_ofChildren` — lowering sends a word to the child of its slot.
-/

set_option autoImplicit false

namespace AArch64

/-! ## Sub-cubes -/

namespace SubCube

/-- A bit of a conjunction is set exactly if it is in all numbers. -/
theorem testBit_foldl_and (l : List Nat) (x i : Nat) :
    (l.foldl (· &&& ·) x).testBit i = (x.testBit i && l.all (·.testBit i)) := by
  induction l generalizing x with
  | nil => simp
  | cons a l ih => simp [ih, Bool.and_assoc]

/-- A bit of a disjunction is set exactly if it is in one of the numbers. -/
theorem testBit_foldl_or (l : List Nat) (x i : Nat) :
    (l.foldl (· ||| ·) x).testBit i = (x.testBit i || l.any (·.testBit i)) := by
  induction l generalizing x with
  | nil => simp
  | cons a l ih => simp [ih, Bool.or_assoc]

/-- Numbers below `2 ^ n` that agree outside of the set bits of `varying` are at most as many as
there are values of these bits.

**Proof sketch.** Such a number is determined by the bits that `varying` gathers from it, and these
form a number below `2 ^ ones n varying`. -/
theorem card_le_of_agree {n varying : Nat} (hv : varying < 2 ^ n) {s : Finset Nat}
    (h : ∀ i ∈ s, ∀ j ∈ s, ∀ b, varying.testBit b = false → i.testBit b = j.testBit b) :
    s.card ≤ 2 ^ Bits.ones n varying := by
  have inj : Set.InjOn (fun i => Bits.gather n i varying) (s : Set Nat) := by
    intro i hi j hj hij
    refine Nat.eq_of_testBit_eq fun b => ?_
    by_cases hb : varying.testBit b
    · have part : i &&& varying = j &&& varying := by
        refine Bits.eq_of_gather_eq hv ?_ ?_ ?_
        · rw [Nat.and_assoc, Nat.and_self]
        · rw [Nat.and_assoc, Nat.and_self]
        · simp only [Bits.gather_and]
          exact congrArg (· &&& _) hij
      simpa [hb] using congrArg (Nat.testBit · b) part
    · exact h i hi j hj b (by simpa using hb)
  have := Finset.card_le_card_of_injOn (t := Finset.range (2 ^ Bits.ones n varying))
    (fun i => Bits.gather n i varying) (fun i _ => by simpa using Bits.gather_lt n i varying) inj
  simpa using this

/-! ### The fields of a sub-cube -/

/-- The bits that are set in all slots. -/
def agreed (n : Nat) (slots : List Nat) : Nat :=
  slots.foldl (· &&& ·) (2 ^ n - 1)

/-- The bits in which two slots differ. -/
def varying (n : Nat) (slots : List Nat) : Nat :=
  agreed n slots ^^^ slots.foldl (· ||| ·) 0

/-- The bits in which all slots agree. -/
def fixed (n : Nat) (slots : List Nat) : Nat :=
  (2 ^ n - 1) ^^^ (varying n slots &&& (2 ^ n - 1))

section Fields

variable {n : Nat} {slots : List Nat}

/-- A sub-cube that is found has the bits in which the slots agree as its mask. -/
theorem eq_of_of? {cube : SubCube} (h : of? (2 ^ n) slots = some cube) :
    slots.length = 2 ^ Bits.ones 32 (varying n slots) ∧
      cube = { mask := fixed n slots, value := agreed n slots &&& fixed n slots } := by
  simp only [of?] at h
  split at h
  · next hlength => exact ⟨hlength, (Option.some.inj h).symm⟩
  · cases h

/-- The bits of the value are those that all slots have. -/
theorem testBit_agreed (b : Nat) :
    (agreed n slots).testBit b = (decide (b < n) && slots.all (·.testBit b)) := by
  rw [agreed, testBit_foldl_and, Nat.testBit_two_pow_sub_one]

/-- A bit varies if one of the slots has it and one of them does not. -/
theorem testBit_varying (b : Nat) : (varying n slots).testBit b =
    ((decide (b < n) && slots.all (·.testBit b)) ^^ slots.any (·.testBit b)) := by
  rw [varying, Nat.testBit_xor, testBit_agreed, testBit_foldl_or, Nat.zero_testBit, Bool.false_or]

/-- The mask has the bits that do not vary. -/
theorem testBit_fixed (b : Nat) :
    (fixed n slots).testBit b = (decide (b < n) && !(varying n slots).testBit b) := by
  rw [fixed, Nat.testBit_xor, Nat.testBit_and, Nat.testBit_two_pow_sub_one]
  by_cases hb : b < n <;> simp [hb]

/-- Slots differ in bits of slots only. -/
theorem varying_lt (hlt : ∀ i ∈ slots, i < 2 ^ n) : varying n slots < 2 ^ n := by
  refine Nat.lt_pow_two_of_testBit _ fun b hb => ?_
  have clear : slots.any (·.testBit b) = false := by
    rw [List.any_eq_false]
    intro x hx
    simp [Bits.testBit_of_lt (hlt x hx) hb]
  rw [testBit_varying, clear, decide_eq_false (by omega), Bool.false_and, Bool.xor_false]

/-- The mask has the bits of slots only. -/
theorem fixed_lt : fixed n slots < 2 ^ n := by
  refine Nat.lt_pow_two_of_testBit _ fun b hb => ?_
  rw [testBit_fixed, decide_eq_false (by omega), Bool.false_and]

/-- The bits that vary are those of a 32-bit word. -/
theorem varying_lt_two_pow_32 (hn : n ≤ 32) (hlt : ∀ i ∈ slots, i < 2 ^ n) :
    varying n slots < 2 ^ 32 :=
  Nat.lt_of_lt_of_le (varying_lt hlt) (Nat.pow_le_pow_right (by omega) hn)

/-- Every slot has the bits that the slots agree on. -/
theorem testBit_eq_of_mem {x b : Nat} (hx : x ∈ slots) (hb : b < n)
    (hfixed : (varying n slots).testBit b = false) : x.testBit b = (agreed n slots).testBit b := by
  rw [testBit_varying, decide_eq_true hb, Bool.true_and] at hfixed
  rw [testBit_agreed, decide_eq_true hb, Bool.true_and]
  cases hxb : x.testBit b with
  | false => exact (List.all_eq_false.2 ⟨x, hx, by simp [hxb]⟩).symm
  | true =>
    have some : slots.any (·.testBit b) = true := List.any_eq_true.2 ⟨x, hx, hxb⟩
    rw [some, Bool.xor_true, Bool.not_eq_false'] at hfixed
    exact hfixed.symm

/-- Slots agree on the bits in which they do not differ. -/
theorem testBit_eq_of_mem_of_mem (hlt : ∀ i ∈ slots, i < 2 ^ n) {x y b : Nat} (hx : x ∈ slots)
    (hy : y ∈ slots) (hb : (varying n slots).testBit b = false) : x.testBit b = y.testBit b := by
  by_cases hbn : b < n
  · rw [testBit_eq_of_mem hx hbn hb, testBit_eq_of_mem hy hbn hb]
  · rw [Bits.testBit_of_lt (hlt x hx) (Nat.not_lt.1 hbn),
      Bits.testBit_of_lt (hlt y hy) (Nat.not_lt.1 hbn)]

/-- A number has the value of the sub-cube if it has the bits that the slots agree on. -/
theorem and_fixed_eq_iff {x : Nat} : x &&& fixed n slots = agreed n slots &&& fixed n slots ↔
    ∀ b < n, (varying n slots).testBit b = false → x.testBit b = (agreed n slots).testBit b := by
  rw [Nat.eq_iff_testBit_eq]
  simp only [Nat.testBit_and, testBit_fixed]
  constructor
  · intro hx b hb hv
    simpa only [hb, hv, decide_true, Bool.not_false, Bool.and_true] using hx b
  · intro hx b
    by_cases hb : b < n
    · cases hv : (varying n slots).testBit b with
      | false => simpa only [hb, decide_true, Bool.not_false, Bool.and_true] using hx b hb hv
      | true => simp only [Bool.not_true, Bool.and_false]
    · simp only [hb, decide_false, Bool.false_and, Bool.and_false]

end Fields

/-- A mask or value that is found has bits of slots only. -/
theorem lt_of_of? {n : Nat} {slots : List Nat} {cube : SubCube}
    (h : of? (2 ^ n) slots = some cube) : cube.mask < 2 ^ n ∧ cube.value < 2 ^ n := by
  obtain ⟨-, rfl⟩ := eq_of_of? h
  exact ⟨fixed_lt, Nat.lt_of_le_of_lt Nat.and_le_right fixed_lt⟩

/-- A sub-cube that is found for a list of distinct slots has exactly these slots.

**Proof sketch.** The mask has the bits in which the slots agree, and the value is what they agree
on, so every slot of the list lies in the sub-cube. The slots of the sub-cube agree outside of the
varying bits, so there are at most as many of them as values of these bits (`card_le_of_agree`),
and the list has that many. -/
theorem and_mask_eq_value_iff {n : Nat} {slots : List Nat} {cube : SubCube} (hn : n ≤ 32)
    (h : of? (2 ^ n) slots = some cube) (hnodup : slots.Nodup)
    (hlt : ∀ i ∈ slots, i < 2 ^ n) {i : Nat} (hi : i < 2 ^ n) :
    i &&& cube.mask = cube.value ↔ i ∈ slots := by
  obtain ⟨hlength, rfl⟩ := eq_of_of? h
  set members := (Finset.range (2 ^ n)).filter fun x => ∀ b < n,
    (varying n slots).testBit b = false → x.testBit b = (agreed n slots).testBit b with hmembers
  have mem_members : ∀ x, x ∈ members ↔ x < 2 ^ n ∧ ∀ b < n,
      (varying n slots).testBit b = false → x.testBit b = (agreed n slots).testBit b := fun x => by
    rw [hmembers, Finset.mem_filter, Finset.mem_range]
  have sub : slots.toFinset ⊆ members := by
    intro x hx
    rw [List.mem_toFinset] at hx
    exact (mem_members x).2 ⟨hlt x hx, fun b hb hv => testBit_eq_of_mem hx hb hv⟩
  have card : members.card ≤ slots.toFinset.card := by
    rw [List.toFinset_card_of_nodup hnodup, hlength]
    refine card_le_of_agree (varying_lt_two_pow_32 hn hlt) fun x hx y hy b hb => ?_
    obtain ⟨hx, hxb⟩ := (mem_members x).1 hx
    obtain ⟨hy, hyb⟩ := (mem_members y).1 hy
    by_cases hbn : b < n
    · rw [hxb b hbn hb, hyb b hbn hb]
    · rw [Bits.testBit_of_lt hx (by omega), Bits.testBit_of_lt hy (by omega)]
  have same := Finset.eq_of_subset_of_card_le sub card
  rw [and_fixed_eq_iff, ← List.mem_toFinset, same, mem_members]
  exact ⟨fun h => ⟨hi, h⟩, fun h => h.2⟩

/-! ### Detection -/

section Detection

variable {n : Nat} {slots : List Nat}

/-- Slots of a table differ in a bit if one of them has it set and another has it clear. -/
theorem exists_mem_of_testBit_varying (hne : slots ≠ []) (hlt : ∀ i ∈ slots, i < 2 ^ n) {b : Nat}
    (hb : (varying n slots).testBit b) :
    ∃ x ∈ slots, ∃ y ∈ slots, x.testBit b = true ∧ y.testBit b = false := by
  have inside : b < n := by
    by_contra hn
    rw [Bits.testBit_of_lt (varying_lt hlt) (Nat.not_lt.1 hn)] at hb
    cases hb
  rw [testBit_varying, decide_eq_true inside, Bool.true_and] at hb
  cases hall : slots.all (·.testBit b) with
  | true =>
    obtain ⟨x, hx⟩ := List.exists_mem_of_ne_nil slots hne
    have hset : slots.any (·.testBit b) = true :=
      List.any_eq_true.2 ⟨x, hx, List.all_eq_true.1 hall x hx⟩
    rw [hall, hset] at hb
    cases hb
  | false =>
    rw [hall, Bool.false_xor] at hb
    obtain ⟨x, hx, hset⟩ := List.any_eq_true.1 hb
    obtain ⟨y, hy, hclear⟩ := List.all_eq_false.1 hall
    exact ⟨x, hx, y, hy, hset, by simpa using hclear⟩

/-- The slots of a list that forms a sub-cube agree on every bit of its mask. -/
theorem and_varying_eq_zero {mask value : Nat} (hne : slots ≠ []) (hlt : ∀ i ∈ slots, i < 2 ^ n)
    (hcube : ∀ i ∈ slots, i &&& mask = value) : mask &&& varying n slots = 0 := by
  refine Nat.eq_of_testBit_eq fun b => ?_
  rw [Nat.testBit_and, Nat.zero_testBit]
  cases hv : (varying n slots).testBit b with
  | false => exact Bool.and_false _
  | true =>
    obtain ⟨x, hx, y, hy, hset, hclear⟩ := exists_mem_of_testBit_varying hne hlt hv
    have same := congrArg (Nat.testBit · b) ((hcube x hx).trans (hcube y hy).symm)
    simpa [hset, hclear] using same

/-- A sub-cube has a slot for every choice of the bits in which its slots differ.

**Proof sketch.** Flipping bits in which slots differ leads from a slot to another one, because the
mask has none of these bits. Scattering the numbers below `2 ^ ones` over these bits chooses what is
flipped, and different numbers flip different bits. -/
theorem two_pow_ones_varying_le {mask value : Nat} (hn : n ≤ 32) (hne : slots ≠ [])
    (hlt : ∀ i ∈ slots, i < 2 ^ n) (hcube : ∀ i < 2 ^ n, i &&& mask = value ↔ i ∈ slots) :
    2 ^ Bits.ones 32 (varying n slots) ≤ slots.length := by
  obtain ⟨x, hx⟩ := List.exists_mem_of_ne_nil slots hne
  have disjoint := and_varying_eq_zero hne hlt fun i hi => (hcube i (hlt i hi)).2 hi
  let flip (k : Nat) : Nat := Bits.scatter 32 k (varying n slots)
  have within (k : Nat) : flip k &&& varying n slots = flip k :=
    Bits.scatter_and_mask 32 k _ (varying_lt_two_pow_32 hn hlt)
  have flipped (k : Nat) : x ^^^ flip k ∈ slots := by
    have small : x ^^^ flip k < 2 ^ n := by
      refine Nat.xor_lt_two_pow (hlt x hx) ?_
      rw [← within k]
      exact Nat.lt_of_le_of_lt Nat.and_le_right (varying_lt hlt)
    have unmasked : flip k &&& mask = 0 := by
      rw [← within k, Nat.and_assoc, Nat.and_comm (varying n slots), disjoint, Nat.and_zero]
    rw [← hcube _ small, Nat.and_xor_distrib_right, unmasked, Nat.xor_zero]
    exact (hcube x (hlt x hx)).2 hx
  have inj : Set.InjOn (fun k => x ^^^ flip k)
      (Finset.range (2 ^ Bits.ones 32 (varying n slots)) : Set Nat) := by
    intro j hj k hk hjk
    rw [Finset.mem_coe, Finset.mem_range] at hj hk
    have same : flip j = flip k := by
      simpa only [← Nat.xor_assoc, Nat.xor_self, Nat.zero_xor] using congrArg (x ^^^ ·) hjk
    have gathered := congrArg (Bits.gather 32 · (varying n slots)) same
    simp only [flip, Bits.gather_scatter] at gathered
    rwa [Nat.mod_eq_of_lt hj, Nat.mod_eq_of_lt hk] at gathered
  have card := Finset.card_le_card_of_injOn (t := slots.toFinset) (fun k => x ^^^ flip k)
    (fun k _ => List.mem_toFinset.2 (flipped k)) inj
  rw [Finset.card_range] at card
  exact Nat.le_trans card slots.toFinset_card_le

/-- Distinct slots are found to form a sub-cube exactly if they do: if they are the slots in which
the bits of some mask have given values.

**Proof sketch.** Slots that are found form the sub-cube that is found (`and_mask_eq_value_iff`).
Conversely the slots of a sub-cube are at least as many as there are choices of the bits in which
they differ (`two_pow_ones_varying_le`), and slots that agree elsewhere are at most as many
(`card_le_of_agree`). -/
theorem isSome_of?_iff (hn : n ≤ 32) (hne : slots ≠ []) (hnodup : slots.Nodup)
    (hlt : ∀ i ∈ slots, i < 2 ^ n) :
    (of? (2 ^ n) slots).isSome ↔
      ∃ mask value : Nat, ∀ i < 2 ^ n, i &&& mask = value ↔ i ∈ slots := by
  constructor
  · intro hfound
    obtain ⟨cube, hcube⟩ := Option.isSome_iff_exists.1 hfound
    exact ⟨cube.mask, cube.value, fun i hi => and_mask_eq_value_iff hn hcube hnodup hlt hi⟩
  · rintro ⟨mask, value, hcube⟩
    have most : slots.length ≤ 2 ^ Bits.ones 32 (varying n slots) := by
      rw [← List.toFinset_card_of_nodup hnodup]
      exact card_le_of_agree (varying_lt_two_pow_32 hn hlt) fun x hx y hy b hb =>
        testBit_eq_of_mem_of_mem hlt (List.mem_toFinset.1 hx) (List.mem_toFinset.1 hy) hb
    have count : slots.length = 2 ^ Bits.ones 32 (varying n slots) :=
      Nat.le_antisymm most (two_pow_ones_varying_le hn hne hlt hcube)
    have found : of? (2 ^ n) slots = some ⟨fixed n slots, agreed n slots &&& fixed n slots⟩ :=
      if_pos count
    rw [found]
    rfl

end Detection

end SubCube

/-- The slots of a child are where the child is. -/
theorem mem_slotsOf {children : Array Nat} {child i : Nat} :
    i ∈ slotsOf children child ↔ children[i]? = some child := by
  simp only [slotsOf, List.mem_map, List.mem_filter, decide_eq_true_eq, Prod.exists]
  constructor
  · rintro ⟨c, j, ⟨hmem, rfl⟩, rfl⟩
    rw [← Array.getElem?_toList]
    exact List.mem_zipIdx_iff_getElem?.1 hmem
  · intro h
    rw [← Array.getElem?_toList] at h
    exact ⟨child, i, ⟨List.mem_zipIdx_iff_getElem?.2 h, rfl⟩, rfl⟩

/-- The slots of a child are listed once. -/
theorem nodup_slotsOf (children : Array Nat) (child : Nat) : (slotsOf children child).Nodup := by
  have hsub : (slotsOf children child).Sublist (children.toList.zipIdx.map (·.2)) :=
    List.filter_sublist.map _
  refine hsub.nodup ?_
  rw [List.zipIdx_map_snd]
  exact List.nodup_range'

/-- The slots of a child are slots of the table. -/
theorem lt_size_of_mem_slotsOf {children : Array Nat} {child i : Nat}
    (hi : i ∈ slotsOf children child) : i < children.size :=
  (Array.getElem?_eq_some_iff.1 (mem_slotsOf.1 hi)).1

/-- A child has no more slots than its table. -/
theorem length_slotsOf_le (children : Array Nat) (child : Nat) :
    (slotsOf children child).length ≤ children.size := by
  rw [slotsOf, List.length_map]
  refine Nat.le_trans (List.length_filter_le _ _) ?_
  rw [List.length_zipIdx, Array.length_toList]

namespace Lowered

/-! ## Dispatch -/

/-- The result of lowering sends a word to a child: the one child that took the table's place, or
the one that the cell sends the word to. -/
def Dispatches (l : Lowered) (w : Word) (child : Nat) : Prop :=
  match l with
  | .forward c => c = child
  | .cell c => c.Sends w child

variable {mask : Word} {children : Array Nat}

/-- The test on a sub-cube of slots decides whether the child of the slot is the one that the
sub-cube belongs to. -/
theorem sends_of_test? {a b : Nat} {c : Cell} (hsize : children.size = 2 ^ Bits.ones 32 mask.toNat)
    (hones : Bits.ones 32 mask.toNat ≤ 32) (h : test? mask children a b = some c)
    (htwo : ∀ x ∈ children, x = a ∨ x = b) {w : Word} {child : Nat}
    (hchild : children[Bits.gather 32 w.toNat mask.toNat]? = some child) : c.Sends w child := by
  simp only [test?, Option.map_eq_some_iff] at h
  obtain ⟨cube, hcube, rfl⟩ := h
  rw [hsize] at hcube
  have hslot := Bits.gather_lt 32 w.toNat mask.toNat
  obtain ⟨hmlt, hvlt⟩ := SubCube.lt_of_of? hcube
  have inside : ∀ i ∈ slotsOf children a, i < 2 ^ Bits.ones 32 mask.toNat := fun i hi =>
    hsize ▸ lt_size_of_mem_slotsOf hi
  have member := SubCube.and_mask_eq_value_iff hones hcube (nodup_slotsOf children a) inside hslot
  rw [mem_slotsOf, hchild, Option.some.injEq] at member
  have test : w &&& BitVec.ofNat 32 (Bits.scatter 32 cube.mask mask.toNat) =
      BitVec.ofNat 32 (Bits.scatter 32 cube.value mask.toNat) ↔ child = a := by
    have small : ∀ x, Bits.scatter 32 x mask.toNat < 2 ^ 32 := fun x =>
      Bits.scatter_lt_two_pow x mask.isLt
    rw [← member, ← Bits.and_scatter_eq_scatter_iff mask.isLt hmlt hvlt, ← BitVec.toNat_inj,
      BitVec.toNat_and, BitVec.toNat_ofNat, BitVec.toNat_ofNat, Nat.mod_eq_of_lt (small _),
      Nat.mod_eq_of_lt (small _)]
  by_cases hca : child = a
  · subst hca
    exact .matched (test.2 rfl)
  · obtain rfl : child = b := by
      have hmem : child ∈ children := Array.mem_of_getElem? hchild
      exact (htwo child hmem).resolve_left hca
    exact .unmatched fun h => hca (test.1 h)

/-- A table is simplified in one of two ways: its only child takes its place, or it becomes a test
for one of its two children. -/
theorem cases_of_simplify? {l : Lowered} (h0 : 0 < children.size)
    (h : simplify? mask children = some l) :
    (∃ a ∈ children, l = .forward a ∧ ∀ c ∈ children, c = a) ∨
      ∃ a ∈ children, ∃ b ∈ children, a ≠ b ∧ (∀ c ∈ children, c = a ∨ c = b) ∧
        ∃ c, l = .cell c ∧ test? mask children a b = some c := by
  have hfirst : children[0]?.getD 0 ∈ children := by simp [Array.getElem?_eq_getElem h0]
  simp only [simplify?] at h
  split at h
  · next hnone =>
    obtain rfl := Option.some.inj h
    refine .inl ⟨_, hfirst, rfl, fun c hc => ?_⟩
    simpa using List.find?_eq_none.1 hnone c (Array.mem_toList_iff.2 hc)
  · next second hsecond =>
    split at h
    · next hall =>
      have hmem : second ∈ children := Array.mem_toList_iff.1 (List.mem_of_find?_eq_some hsecond)
      have hne : second ≠ children[0]?.getD 0 := by simpa using List.find?_some hsecond
      have htwo : ∀ x ∈ children, x = children[0]?.getD 0 ∨ x = second := fun x hx => by
        simpa using List.all_eq_true.1 hall x (Array.mem_toList_iff.2 hx)
      obtain ⟨c, hc, rfl⟩ := Option.map_eq_some_iff.1 h
      rcases Option.or_eq_some_iff.1 hc with hc | ⟨-, hc⟩
      · exact .inr ⟨_, hfirst, second, hmem, hne.symm, htwo, c, rfl, hc⟩
      · exact .inr ⟨second, hmem, _, hfirst, hne, fun x hx => (htwo x hx).symm, c, rfl, hc⟩
    · cases h

/-- A simplified table sends every word to the child of its slot. -/
theorem dispatches_of_simplify? {l : Lowered}
    (hsize : children.size = 2 ^ Bits.ones 32 mask.toNat) (hones : Bits.ones 32 mask.toNat ≤ 32)
    (h : simplify? mask children = some l) {w : Word} {child : Nat}
    (hchild : children[Bits.gather 32 w.toNat mask.toNat]? = some child) :
    l.Dispatches w child := by
  have h0 : 0 < children.size := hsize ▸ Nat.two_pow_pos _
  rcases cases_of_simplify? h0 h with ⟨a, -, rfl, hone⟩ | ⟨a, -, b, -, -, htwo, c, rfl, hc⟩
  · exact (hone child (Array.mem_of_getElem? hchild)).symm
  · exact sends_of_test? hsize hones hc htwo hchild

/-- Lowering a table sends every word, without a failed check, to the child of its slot. -/
theorem dispatches_ofChildren (hmask : mask ≠ 0)
    (hsize : children.size = 2 ^ Bits.ones 32 mask.toNat) (hones : Bits.ones 32 mask.toNat ≤ 32)
    (optimize : Bool) {w : Word} {child : Nat}
    (hchild : children[Bits.gather 32 w.toNat mask.toNat]? = some child) :
    (ofChildren mask children optimize).Dispatches w child := by
  have plain : Dispatches (.cell (.table (Sampler.ofMask mask) children)) w child :=
    .table (Sampler.read_ofMask hmask w) hchild
  simp only [ofChildren]
  split
  · cases hs : simplify? mask children with
    | none => exact plain
    | some l => exact dispatches_of_simplify? hsize hones hs hchild
  · exact plain

/-! ## Successors -/

/-- A table is lowered to one of its children, to a table of all of them or to a test between two of
them. -/
theorem cases_of_ofChildren {optimize : Bool} {l : Lowered} (h0 : 0 < children.size)
    (h : ofChildren mask children optimize = l) :
    (∃ a ∈ children, l = .forward a) ∨ l = .cell (.table (Sampler.ofMask mask) children) ∨
      ∃ a ∈ children, ∃ b ∈ children, ∃ m v, l = .cell (.test m v a b) := by
  subst h
  simp only [ofChildren]
  split
  · cases hs : simplify? mask children with
    | none => exact .inr (.inl rfl)
    | some l =>
      rcases cases_of_simplify? h0 hs with ⟨a, ha, hl, -⟩ | ⟨a, ha, b, hb, -, -, c, hl, hc⟩
      · exact .inl ⟨a, ha, hl⟩
      · obtain ⟨cube, -, rfl⟩ := Option.map_eq_some_iff.1 hc
        exact .inr (.inr ⟨a, ha, b, hb, _, _, hl⟩)
  · exact .inr (.inl rfl)

/-- A table is replaced by one of its children only. -/
theorem mem_of_ofChildren_eq_forward {optimize : Bool} {child : Nat} (h0 : 0 < children.size)
    (h : ofChildren mask children optimize = .forward child) : child ∈ children := by
  rcases cases_of_ofChildren h0 h with ⟨a, ha, hl⟩ | hl | ⟨a, -, b, -, m, v, hl⟩
  · exact Lowered.forward.inj hl ▸ ha
  · cases hl
  · cases hl

/-- The cell of a table refers to children of the table only. -/
theorem mem_of_mem_successors {optimize : Bool} {c : Cell} (h0 : 0 < children.size)
    (h : ofChildren mask children optimize = .cell c) {j : Nat} (hj : j ∈ c.successors) :
    j ∈ children := by
  rcases cases_of_ofChildren h0 h with ⟨a, -, hl⟩ | hl | ⟨a, ha, b, hb, m, v, hl⟩
  · cases hl
  · obtain rfl := Lowered.cell.inj hl
    exact Array.mem_toList_iff.1 hj
  · obtain rfl := Lowered.cell.inj hl
    rcases List.mem_pair.1 hj with rfl | rfl
    · exact ha
    · exact hb

/-- A table that stays one has all of its children, and reads the bits of its mask. -/
theorem eq_of_ofChildren_eq_table {optimize : Bool} {sampler : Sampler} {cs : Array Nat}
    (h0 : 0 < children.size) (h : ofChildren mask children optimize = .cell (.table sampler cs)) :
    sampler = Sampler.ofMask mask ∧ cs = children := by
  rcases cases_of_ofChildren h0 h with ⟨a, -, hl⟩ | hl | ⟨a, -, b, -, m, v, hl⟩
  · cases hl
  · exact Cell.table.inj (Lowered.cell.inj hl)
  · cases hl

/-- No table becomes a leaf. -/
theorem ofChildren_ne_leaf {optimize : Bool} (h0 : 0 < children.size) (c : Category) :
    ofChildren mask children optimize ≠ .cell (.leaf c) := by
  intro h
  rcases cases_of_ofChildren h0 h with ⟨a, -, hl⟩ | hl | ⟨a, -, b, -, m, v, hl⟩
  all_goals cases hl

end Lowered

end AArch64
