import AArch64.Proofs.Machine

/-!
# Carry and overflow

A subtraction adds the complement of the second source and a carry. The result is the difference,
the carry says that nothing was borrowed, and the overflow that the difference of the signed numbers
does not fit. The negative of a value, subtracted, gives the same result and the same flags as the
value itself, added, unless the value is zero or has no negative.

## Main definitions

* `AArch64.Flags.ofAdd`, `AArch64.Flags.ofSub` — the flags of a sum and of a difference.
* `AArch64.AddSubOp.result` — the sum or the difference with its flags.

## Main results

* `AArch64.AddSubOp.apply_eq_result` — an addition or subtraction computes the result.
* `AArch64.AddSubOp.result_dual` — the dual operation with the negative.
-/

set_option autoImplicit false

namespace AArch64

/-- The flags of a sum. -/
def Flags.ofAdd {w : Nat} (x y : BitVec w) : Flags where
  negative := (x + y).msb
  zero := x + y = 0#w
  carry := x.uaddOverflow y
  overflow := x.saddOverflow y

/-- The flags of a difference. -/
def Flags.ofSub {w : Nat} (x y : BitVec w) : Flags where
  negative := (x - y).msb
  zero := x = y
  carry := !x.usubOverflow y
  overflow := x.ssubOverflow y

/-- The sum or the difference of two values, and its flags. -/
def AddSubOp.result {w : Nat} (op : AddSubOp) (x y : BitVec w) : BitVec w × Flags :=
  if op.isSub then (x - y, .ofSub x y) else (x + y, .ofAdd x y)

/-! ## Sums and differences -/

section Arithmetic

variable {w : Nat} {x y : BitVec w}

/-- The most significant bit of a number counts half of what is above it. -/
theorem two_pow_eq (hw : 0 < w) : 2 ^ w = 2 * 2 ^ (w - 1) := by
  rw [← Nat.pow_succ', Nat.succ_eq_add_one, Nat.sub_add_cancel hw]

/-- The complement of a word, and one more, as a number without sign. -/
theorem toNat_not_add_one (y : BitVec w) : (~~~y).toNat + 1 = 2 ^ w - y.toNat := by
  have small := y.isLt
  rw [BitVec.toNat_not]
  omega

/-- The complement of a word, and one more, is the negated number with sign. -/
theorem toInt_not_add_one (hw : 0 < w) (y : BitVec w) : (~~~y).toInt + 1 = -y.toInt := by
  have power := two_pow_eq hw
  have small := y.isLt
  rw [BitVec.toInt_eq_toNat_cond, BitVec.toInt_eq_toNat_cond, BitVec.toNat_not]
  split <;> split <;> omega

/-- A signed number that does not fit is reduced to another one. -/
theorem bmod_ne_iff (hw : 0 < w) (s : Int) :
    s.bmod (2 ^ w) ≠ s ↔ s ≥ 2 ^ (w - 1) ∨ s < -2 ^ (w - 1) := by
  have power := two_pow_eq hw
  have half : (2 ^ (w - 1) : Int) = (2 ^ (w - 1) : Nat) := by norm_cast
  have pos := Nat.two_pow_pos (w - 1)
  rw [half, power]
  constructor
  · intro reduced
    by_contra fits
    exact reduced (Int.bmod_eq_of_le (by omega) (by omega))
  · intro overflow same
    have lower := @Int.le_bmod s (2 * 2 ^ (w - 1)) (by omega)
    have upper := @Int.bmod_lt s (2 * 2 ^ (w - 1)) (by omega)
    omega

/-- The difference is zero if nothing is left. -/
theorem sub_eq_zero_iff_eq : x - y = 0#w ↔ x = y := by
  rw [BitVec.sub_eq_iff_eq_add, BitVec.zero_add]

/-- An addition computes the sum. -/
theorem addWithCarry_false (hw : 0 < w) (x y : BitVec w) :
    addWithCarry x y false = (x + y, .ofAdd x y) := by
  have sum : BitVec.ofNat w (x.toNat + y.toNat + Bool.toNat false) = x + y := by
    refine BitVec.eq_of_toNat_eq ?_
    rw [BitVec.toNat_ofNat, BitVec.toNat_add, Bool.toNat_false, Nat.add_zero]
  have carry : decide ((x + y).toNat ≠ x.toNat + y.toNat + Bool.toNat false) =
      x.uaddOverflow y := by
    rw [Bool.toNat_false, Nat.add_zero, BitVec.toNat_add]
    refine decide_eq_decide.2 ?_
    rw [Ne, Nat.mod_eq_iff_lt (Nat.two_pow_pos w).ne', Nat.not_lt]
  have overflow : decide ((x + y).toInt ≠ x.toInt + y.toInt + Bool.toNat false) =
      x.saddOverflow y := by
    rw [Bool.toNat_false, Int.natCast_zero, Int.add_zero, BitVec.toInt_add, BitVec.saddOverflow,
      ← Bool.decide_or]
    exact decide_eq_decide.2 (bmod_ne_iff hw _)
  simp only [addWithCarry, Flags.ofAdd, sum, carry, overflow]

/-- The addition of the complement and a carry computes the difference. -/
theorem addWithCarry_not (hw : 0 < w) (x y : BitVec w) :
    addWithCarry x (~~~y) true = (x - y, .ofSub x y) := by
  have bounds := x.isLt
  have bounds' := y.isLt
  have unsigned : x.toNat + (~~~y).toNat + Bool.toNat true = 2 ^ w - y.toNat + x.toNat := by
    have complement := toNat_not_add_one y
    rw [Bool.toNat_true]
    omega
  have signed : x.toInt + (~~~y).toInt + Bool.toNat true = x.toInt - y.toInt := by
    have complement := toInt_not_add_one hw y
    rw [Bool.toNat_true, Int.natCast_one]
    omega
  have difference : BitVec.ofNat w (2 ^ w - y.toNat + x.toNat) = x - y := by
    refine BitVec.eq_of_toNat_eq ?_
    rw [BitVec.toNat_ofNat, BitVec.toNat_sub]
  have zero : decide (x - y = 0#w) = decide (x = y) := decide_eq_decide.2 sub_eq_zero_iff_eq
  have carry : decide ((x - y).toNat ≠ 2 ^ w - y.toNat + x.toNat) = !x.usubOverflow y := by
    rw [BitVec.toNat_sub, BitVec.usubOverflow, ← decide_not]
    refine decide_eq_decide.2 ?_
    rw [Ne, Nat.mod_eq_iff_lt (Nat.two_pow_pos w).ne']
    omega
  have overflow : decide ((x - y).toInt ≠ x.toInt - y.toInt) = x.ssubOverflow y := by
    rw [BitVec.toInt_sub, BitVec.ssubOverflow, ← Bool.decide_or]
    exact decide_eq_decide.2 (bmod_ne_iff hw _)
  simp only [addWithCarry, unsigned, signed, Flags.ofSub, difference, zero, carry, overflow]

/-- **An addition or subtraction computes the sum or the difference**, and its flags. -/
theorem AddSubOp.apply_eq_result (hw : 0 < w) (op : AddSubOp) (x y : BitVec w) :
    op.apply x y = op.result x y := by
  rw [apply, result, addWithCarry_false hw, addWithCarry_not hw]

/-! ## The dual operation -/

/-- A value is subtracted as its negative is added, flags included, unless the value is zero or has
no negative. -/
theorem ofSub_eq_ofAdd_neg (hy : y ≠ 0#w) (hmin : y ≠ BitVec.intMin w) (x : BitVec w) :
    Flags.ofSub x y = Flags.ofAdd x (-y) := by
  have bounds := x.isLt
  have bounds' := y.isLt
  have pos : 0 < y.toNat := by
    rw [Nat.pos_iff_ne_zero]
    exact fun zero => hy (BitVec.eq_of_toNat_eq zero)
  have negative : (-y).toNat = 2 ^ w - y.toNat := by
    rw [BitVec.toNat_neg, Nat.mod_eq_of_lt (by omega)]
  have difference : x + -y = x - y := (BitVec.sub_eq_add_neg x y).symm
  have zero : decide (x - y = 0#w) = decide (x = y) := decide_eq_decide.2 sub_eq_zero_iff_eq
  have carry : (!x.usubOverflow y) = x.uaddOverflow (-y) := by
    rw [BitVec.usubOverflow, BitVec.uaddOverflow, negative, ← decide_not]
    exact decide_eq_decide.2 (by omega)
  have overflow : x.ssubOverflow y = x.saddOverflow (-y) := by
    rw [BitVec.ssubOverflow, BitVec.saddOverflow, BitVec.toInt_neg_of_ne_intMin hmin]
    rfl
  simp only [Flags.ofSub, Flags.ofAdd, difference, zero, carry, overflow]

/-- **The dual operation with the negative** gives the same result and the same flags, unless the
operand is zero or has no negative. -/
theorem AddSubOp.result_dual (hy : y ≠ 0#w) (hmin : y ≠ BitVec.intMin w) (op : AddSubOp)
    (x : BitVec w) : op.dual.result x (-y) = op.result x y := by
  have negative : -y ≠ 0#w := fun zero => hy (BitVec.neg_eq_zero_iff.1 zero)
  have negative_min : -y ≠ BitVec.intMin w := fun min => hmin (BitVec.neg_eq_intMin.1 min)
  have added : (x - -y, Flags.ofSub x (-y)) = (x + y, Flags.ofAdd x y) := by
    rw [ofSub_eq_ofAdd_neg negative negative_min, BitVec.neg_neg, BitVec.sub_neg]
  have subtracted : (x + -y, Flags.ofAdd x (-y)) = (x - y, Flags.ofSub x y) := by
    rw [ofSub_eq_ofAdd_neg hy hmin, ← BitVec.sub_eq_add_neg]
  cases op with
  | add => exact added
  | adds => exact added
  | sub => exact subtracted
  | subs => exact subtracted

end Arithmetic

end AArch64
