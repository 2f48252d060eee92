import AArch64.Proofs.Enumeration
import AArch64.Proofs.Lowering
import AArch64.Proofs.Routes

/-!
# Lowering in checked arithmetic

A table of up to 16 sampled bits is lowered without a trap, to what the plain definition says. One
pass over the slots of a child takes their conjunction, their disjunction and their number, which
decide whether the slots form a sub-cube, and the sub-cube is carried over to words bit by bit.

## Main results

* `AArch64.Census.foldlM_add` — what one pass over slots has seen.
* `AArch64.SubCube.checkedOf?_eq` — the pass finds the sub-cube of slots.
* `AArch64.Lowered.checkedOfChildren_eq` — lowering does not trap.
* `AArch64.Lowered.lower_exact` — lowering keeps the child of every word, and finds exactly the
  sub-cubes.
-/

set_option autoImplicit false

namespace AArch64

/-! ## One pass over slots -/

namespace Census

/-- A pass sees the conjunction, the disjunction and the number of slots. -/
theorem foldlM_add {slots : List Nat} (all any : Word) (count : Nat)
    (hcount : count + slots.length < 2 ^ 32) (hlt : ∀ i ∈ slots, i < 2 ^ 32) :
    ∃ c, slots.foldlM add ⟨all, any, count⟩ = .ok c ∧
      c.all.toNat = slots.foldl (· &&& ·) all.toNat ∧
      c.any.toNat = slots.foldl (· ||| ·) any.toNat ∧ c.count = count + slots.length := by
  induction slots generalizing all any count with
  | nil => exact ⟨_, rfl, rfl, rfl, rfl⟩
  | cons i slots ih =>
    obtain ⟨hi, hlt⟩ := List.forall_mem_cons.1 hlt
    rw [List.length_cons, Nat.add_comm slots.length, ← Nat.add_assoc] at hcount
    have index : (BitVec.ofNat 32 i).toNat = i := by
      rw [BitVec.toNat_ofNat, Nat.mod_eq_of_lt hi]
    have step : add ⟨all, any, count⟩ i =
        .ok ⟨all &&& .ofNat 32 i, any ||| .ofNat 32 i, count + 1⟩ := by
      rw [add, Trap.fits, if_pos (decide_eq_true (show count + 1 < 2 ^ 32 by omega))]
      rfl
    obtain ⟨c, hc, hall, hany, hlength⟩ := ih _ _ _ hcount hlt
    refine ⟨c, ?_, ?_, ?_, ?_⟩
    · rw [List.foldlM_cons, step, ok_bind, hc]
    · rw [hall, BitVec.toNat_and, index, List.foldl_cons]
    · rw [hany, BitVec.toNat_or, index, List.foldl_cons]
    · rw [hlength, List.length_cons]
      omega

end Census

namespace SubCube

variable {n : Nat} {slots : List Nat}

/-- The complement of the bits in which slots differ, cut to the bits of slots. -/
theorem toNat_not_and {varying full : Word} :
    (~~~varying &&& full).toNat = full.toNat ^^^ (varying.toNat &&& full.toNat) := by
  refine Nat.eq_of_testBit_eq fun j => ?_
  rw [Nat.testBit_xor, Nat.testBit_and, BitVec.testBit_toNat, BitVec.testBit_toNat,
    BitVec.testBit_toNat, BitVec.getLsbD_and, BitVec.getLsbD_not]
  by_cases hj : j < 32
  · cases varying.getLsbD j <;> simp [hj]
  · simp [hj, BitVec.getLsbD_of_ge full j (Nat.not_lt.1 hj)]

/-- One pass finds the sub-cube of slots of up to 16 bits. -/
theorem checkedOf?_eq (hn : n ≤ 16) (hlength : slots.length ≤ 2 ^ n)
    (hlt : ∀ i ∈ slots, i < 2 ^ n) : checkedOf? (2 ^ n) slots = .ok (of? (2 ^ n) slots) := by
  have small : 2 ^ n ≤ 2 ^ 16 := Nat.pow_le_pow_right (by decide) hn
  have full : (BitVec.ofNat 32 (2 ^ n - 1)).toNat = 2 ^ n - 1 := by
    rw [BitVec.toNat_ofNat, Nat.mod_eq_of_lt (by omega)]
  obtain ⟨census, hcensus, hall, hany, hcount⟩ :=
    @Census.foldlM_add slots (.ofNat 32 (2 ^ n - 1)) 0 0 (by omega)
      fun i hi => Nat.lt_trans (hlt i hi) (by omega)
  have hvarying : (census.all ^^^ census.any).toNat = varying n slots := by
    rw [BitVec.toNat_xor, hall, hany, full]
    rfl
  have few : Bits.ones 32 (varying n slots) < 32 := by
    have := RotatedRun.ones_le n (varying n slots)
    rw [Bits.ones_of_lt (by omega) (varying_lt hlt)]
    omega
  have hmask : (~~~(census.all ^^^ census.any) &&& BitVec.ofNat 32 (2 ^ n - 1)).toNat =
      fixed n slots := by
    rw [toNat_not_and, hvarying, full]
    rfl
  rw [checkedOf?, Bits.difference_of_le Nat.one_le_two_pow, ok_bind]
  dsimp only
  rw [hcensus, ok_bind, hvarying, Bits.shiftLeft_one few, ok_bind, hcount, Nat.zero_add]
  have found : of? (2 ^ n) slots = if slots.length = 2 ^ Bits.ones 32 (varying n slots) then
      some ⟨fixed n slots, agreed n slots &&& fixed n slots⟩ else none := rfl
  rw [found]
  split
  · rw [hmask, BitVec.toNat_and, hmask, hall, full]
    rfl
  · rfl

end SubCube

/-! ## Tables -/

namespace Lowered

variable {mask : Word} {children : Array Nat} {n : Nat}

/-- The pass over the slots of a child. -/
theorem checkedOf?_slotsOf (hsize : children.size = 2 ^ n) (hn : n ≤ 16) (child : Nat) :
    SubCube.checkedOf? children.size (slotsOf children child) =
      .ok (SubCube.of? children.size (slotsOf children child)) := by
  rw [hsize]
  exact SubCube.checkedOf?_eq hn (hsize ▸ length_slotsOf_le children child)
    fun i hi => hsize ▸ lt_size_of_mem_slotsOf hi

/-- The search for a sub-cube does not overflow. -/
theorem checkedTest?_eq (hsize : children.size = 2 ^ n) (hn : n ≤ 16) (a b : Nat) :
    checkedTest? mask children a b = .ok (test? mask children a b) := by
  rw [checkedTest?, checkedOf?_slotsOf hsize hn, ok_bind, test?]
  cases hcube : SubCube.of? children.size (slotsOf children a) with
  | none => rfl
  | some cube =>
    have short : ∀ x < 2 ^ n, (BitVec.ofNat 32 x).toNat = x := fun x hx => by
      rw [BitVec.toNat_ofNat, Nat.mod_eq_of_lt]
      exact Nat.lt_of_lt_of_le hx (Nat.pow_le_pow_right (by decide) (by omega))
    rw [hsize] at hcube
    obtain ⟨hmask, hvalue⟩ := SubCube.lt_of_of? hcube
    dsimp only
    rw [Bits.Route.move_spread (by decide), ok_bind, Bits.Route.move_spread (by decide), ok_bind,
      Bits.scatterWord, Bits.scatterWord, short _ hmask, short _ hvalue]
    rfl

/-- Simplification does not overflow. -/
theorem checkedSimplify?_eq (hsize : children.size = 2 ^ n) (hn : n ≤ 16) :
    checkedSimplify? mask children = .ok (simplify? mask children) := by
  have h0 : 0 < children.size := hsize ▸ Nat.two_pow_pos n
  rw [checkedSimplify?, Trap.demand, if_pos (decide_eq_true h0), ok_bind, simplify?]
  dsimp only
  cases children.toList.find? (· ≠ children[0]?.getD 0) with
  | none => rfl
  | some second =>
    dsimp only
    split
    · rw [checkedTest?_eq hsize hn, ok_bind]
      cases test? mask children (children[0]?.getD 0) second with
      | some c => rfl
      | none =>
        dsimp only
        rw [checkedTest?_eq hsize hn]
        rfl
    · rfl

/-- A mask of 1 to 16 bits is neither empty nor full. -/
theorem ne_zero_and_ne_allOnes (hones : Bits.ones 32 mask.toNat = n) (hpos : 1 ≤ n) (hn : n ≤ 16) :
    mask ≠ 0 ∧ mask ≠ .allOnes 32 := by
  constructor
  · rintro rfl
    rw [show Bits.ones 32 (0 : Word).toNat = 0 by decide] at hones
    omega
  · rintro rfl
    rw [show Bits.ones 32 (BitVec.allOnes 32).toNat = 32 by decide] at hones
    omega

/-- Lowering a table of up to 16 sampled bits does not trap. -/
theorem checkedOfChildren_eq (hones : Bits.ones 32 mask.toNat = n) (hpos : 1 ≤ n) (hn : n ≤ 16)
    (hsize : children.size = 2 ^ n) (optimize : Bool) :
    checkedOfChildren mask children optimize = .ok (ofChildren mask children optimize) := by
  obtain ⟨nonzero, notFull⟩ := ne_zero_and_ne_allOnes hones hpos hn
  have sampler : Sampler.forMask mask = .ok (Sampler.ofMask mask) := by
    rw [Sampler.forMask_of_ne_zero nonzero, if_neg notFull]
  rw [checkedOfChildren, ofChildren, sampler]
  cases optimize with
  | false => rfl
  | true =>
    rw [if_pos rfl, if_pos rfl, checkedSimplify?_eq hsize hn, ok_bind]
    cases simplify? mask children <;> rfl

/-- A word goes on to the child that it is dispatched to. -/
theorem Dispatches.next_eq {l : Lowered} {w : Word} {child : Nat} (h : l.Dispatches w child) :
    l.next w = some child := by
  cases l with
  | forward c => exact congrArg some h
  | cell c => exact Cell.Sends.next_eq h

/-- **Lowering a table preserves its dispatch and detects sub-cubes exactly.** For a table of 1 to
16 sampled bits with any children, lowered with or without simplification, no step traps. Every word
goes on to the child in the slot of its sampled bits, without a failed check. For every child of the
table, a sub-cube is found exactly if the slots of the child are those in which some bits have given
values, and the one that is found has these slots. -/
theorem lower_exact (hones : Bits.ones 32 mask.toNat = n) (hpos : 1 ≤ n) (hn : n ≤ 16)
    (hsize : children.size = 2 ^ n) :
    (∀ optimize, ∃ l, checkedOfChildren mask children optimize = .ok l ∧
      ofChildren mask children optimize = l ∧
      ∀ w, ∃ slot child, Bits.Route.pack.move w mask = .ok slot ∧
        children[slot.toNat]? = some child ∧ l.Dispatches w child ∧ l.next w = some child) ∧
    ∀ child ∈ children, ∃ cube?,
      SubCube.checkedOf? children.size (slotsOf children child) = .ok cube? ∧
      SubCube.of? children.size (slotsOf children child) = cube? ∧
      (cube?.isSome ↔
        ∃ m v : Nat, ∀ i < 2 ^ n, i &&& m = v ↔ children[i]? = some child) ∧
      ∀ cube ∈ cube?, ∀ i < 2 ^ n, i &&& cube.mask = cube.value ↔ children[i]? = some child := by
  constructor
  · intro optimize
    refine ⟨_, checkedOfChildren_eq hones hpos hn hsize optimize, rfl, fun w => ?_⟩
    have slot := Bits.toNat_gatherWord w mask
    have inside : (Bits.gatherWord w mask).toNat < children.size := by
      rw [slot, hsize, ← hones]
      exact Bits.gather_lt 32 _ _
    have hchild := Array.getElem?_eq_getElem inside
    have dispatches : (ofChildren mask children optimize).Dispatches w
        children[(Bits.gatherWord w mask).toNat] := by
      refine dispatches_ofChildren (ne_zero_and_ne_allOnes hones hpos hn).1 (hones ▸ hsize)
        (by omega) optimize ?_
      rw [← slot, hchild]
    exact ⟨_, _, Bits.Route.move_pack (by decide) w mask, hchild, dispatches,
      dispatches.next_eq⟩
  · intro child hmem
    have nonempty : slotsOf children child ≠ [] := by
      obtain ⟨i, hi⟩ := Array.mem_iff_getElem?.1 hmem
      exact List.ne_nil_of_mem (mem_slotsOf.2 hi)
    have inside : ∀ i ∈ slotsOf children child, i < 2 ^ n := fun i hi =>
      hsize ▸ lt_size_of_mem_slotsOf hi
    have distinct := nodup_slotsOf children child
    refine ⟨_, checkedOf?_slotsOf hsize hn child, rfl, ?_, fun cube hcube i hi => ?_⟩
    · rw [hsize, SubCube.isSome_of?_iff (by omega) nonempty distinct inside]
      simp only [mem_slotsOf]
    · rw [hsize] at hcube
      rw [SubCube.and_mask_eq_value_iff (by omega) hcube distinct inside hi, mem_slotsOf]

/-- Three sampled bits: the six slots of the first child are no sub-cube, and the two slots of the
second one are those that have bit 1 set and bit 0 clear. -/
theorem lower_exact_secondChild :
    let children := #[0, 0, 1, 0, 0, 0, 1, 0]
    (∃ l, checkedOfChildren 0x80400020 children true = .ok l ∧
      l.next 0xd6400000 = some 1 ∧ l.next 0xd6400020 = some 0) ∧
    SubCube.checkedOf? 8 (slotsOf children 0) = .ok none ∧
    SubCube.checkedOf? 8 (slotsOf children 1) = .ok (some { mask := 0b011, value := 0b010 }) := by
  intro children
  obtain ⟨lowers, detects⟩ :=
    @lower_exact 0x80400020 children 3 (by decide) (by decide) (by decide) rfl
  obtain ⟨l, checked, rfl, -⟩ := lowers true
  obtain ⟨first, hfirst, rfl, -⟩ := detects 0 (by simp [children])
  obtain ⟨second, hsecond, rfl, -⟩ := detects 1 (by simp [children])
  refine ⟨⟨_, checked, ?_, ?_⟩, hfirst.trans ?_, hsecond.trans ?_⟩
  all_goals decide +kernel

end Lowered

end AArch64
