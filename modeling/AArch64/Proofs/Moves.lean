import AArch64.Proofs.Constants
import AArch64.Proofs.OperationFrame

/-!
# What moves do

A move leaves the value of its operand in its destination, at the width of the destination, and
changes nothing else. Shifts and extensions are bitfield moves: a shift to the right moves a field
down to bit 0, and a shift to the left and an extension move a field at bit 0 up.

## Main definitions

* `AArch64.Operand.value` — the value of an operand for an operation of some width.

## Main results

* `AArch64.BitfieldOp.apply_high`, `AArch64.BitfieldOp.apply_low` — a field that reaches the top is
  moved down to bit 0, and a field at bit 0 is moved up.
* `AArch64.Emit.runs_mov` — a move moves the value of its operand.
-/

set_option autoImplicit false

namespace AArch64

/-- The value of an operand for an operation of `w` bits. Immediates count modulo `2 ^ w`. -/
def Operand.value (m : Machine) (w : Nat) : Operand → BitVec w
  | .immediate value => BitVec.ofInt w value
  | .register r => m.readAt w r
  | .shifted r shift amount => shift.apply (m.readAt w r) amount
  | .extended r extend amount => extend.apply w (m.read r) <<< amount

/-! ## Bitfield moves -/

/-- A shift to the left as a rotation to the right. -/
theorem rotation_cases {w amount : Nat} (h : amount < w) :
    amount = 0 ∧ (w - amount) % w = 0 ∨ 0 < amount ∧ (w - amount) % w = w - amount := by
  rcases Nat.eq_zero_or_pos amount with rfl | pos
  · exact .inl ⟨rfl, by rw [Nat.sub_zero, Nat.mod_self]⟩
  · exact .inr ⟨pos, Nat.mod_eq_of_lt (by omega)⟩

namespace BitfieldOp

variable {w n : Nat} (amount : Nat) (old x : BitVec w)

/-- The low `n` bits are moved to bit `amount`, filled up with zeros or with their sign. -/
theorem apply_low (hn : 0 < n) (hfits : amount + n ≤ w) (signed : Bool) :
    (if signed then sbfm else ubfm).apply old x ((w - amount) % w) (n - 1) =
      (if signed then (x.setWidth n).signExtend w else (x.setWidth n).setWidth w) <<< amount := by
  have rotation := rotation_cases (show amount < w by omega)
  generalize (w - amount) % w = immr at rotation
  have start : (if immr ≤ n - 1 then immr else 0) = 0 := by split <;> omega
  have length : (if immr ≤ n - 1 then n - 1 - immr + 1 else n - 1 + 1) = n := by split <;> omega
  have position : (if immr ≤ n - 1 then 0 else w - immr) = amount := by split <;> omega
  have low : x.extractLsb' 0 n = x.setWidth n := by
    rw [← BitVec.setWidth_ushiftRight_eq_extractLsb, BitVec.ushiftRight_zero]
  cases signed with
  | false =>
    simp only [Bool.false_eq_true, if_false, apply]
    rw [start, length, position, low]
  | true =>
    simp only [if_true, apply]
    rw [start, length, position, low]

/-- The bits from `amount` on are moved down to bit 0, filled up with zeros or with their sign. -/
theorem apply_high {amount : Nat} (hamount : amount < w) (signed : Bool) :
    (if signed then sbfm else ubfm).apply old x amount (w - 1) =
      if signed then x.sshiftRight amount else x >>> amount := by
  have start : (if amount ≤ w - 1 then amount else 0) = amount := if_pos (by omega)
  have length : (if amount ≤ w - 1 then w - 1 - amount + 1 else w - 1 + 1) = w - amount := by
    split <;> omega
  have position : (if amount ≤ w - 1 then 0 else w - amount) = 0 := if_pos (by omega)
  cases signed with
  | false =>
    simp only [Bool.false_eq_true, if_false, apply]
    rw [start, length, position]
    rw [BitVec.shiftLeft_zero, ← BitVec.setWidth_ushiftRight_eq_extractLsb]
    refine BitVec.eq_of_getLsbD_eq fun k hk => ?_
    rw [BitVec.getLsbD_setWidth, BitVec.getLsbD_setWidth, BitVec.getLsbD_ushiftRight,
      decide_eq_true hk, Bool.true_and]
    by_cases room : k < w - amount
    · rw [decide_eq_true room, Bool.true_and]
    · rw [BitVec.getLsbD_of_ge x _ (by omega), Bool.and_false]
  | true =>
    simp only [if_true, apply]
    rw [start, length, position, BitVec.shiftLeft_zero]
    refine BitVec.eq_of_getLsbD_eq fun k hk => ?_
    have sign : (x.extractLsb' amount (w - amount)).msb = x.msb := by
      rw [BitVec.msb_eq_getLsbD_last, BitVec.getLsbD_extractLsb', BitVec.msb_eq_getLsbD_last,
        decide_eq_true (by omega), Bool.true_and]
      congr 1
      omega
    rw [BitVec.getLsbD_signExtend, BitVec.getLsbD_extractLsb', BitVec.getLsbD_sshiftRight, sign,
      decide_eq_true hk, decide_eq_false (show ¬ w ≤ k by omega), Bool.true_and]
    by_cases room : k < w - amount
    · rw [if_pos room, if_pos (by omega), decide_eq_true room]
      rfl
    · rw [if_neg room, if_neg (by omega)]
      rfl

end BitfieldOp

/-- A bit pattern is rotated by reading it from a pair of copies. -/
theorem extractLsb'_append_self {w amount : Nat} (hamount : amount < w) (x : BitVec w) :
    (x ++ x).extractLsb' amount w = x.rotateRight amount := by
  refine BitVec.eq_of_getLsbD_eq fun k hk => ?_
  rw [BitVec.getLsbD_extractLsb', BitVec.getLsbD_append, BitVec.getLsbD_rotateRight,
    Nat.mod_eq_of_lt hamount, decide_eq_true hk, Bool.true_and, Bool.true_and]
  by_cases room : k < w - amount
  · rw [if_pos (by omega), decide_eq_true room, cond_true]
  · rw [if_neg (by omega), decide_eq_false room, cond_false]
    congr 1
    omega

/-! ## Moves of registers -/

namespace Move

variable {rd rm rn : Register} (m : Machine)

/-- A copy. The stack pointer is copied by adding nothing. -/
theorem execute_registerForm :
    (registerForm rd rm).execute m = some (m.writeAt rd (m.readAt rd.width rm)) := by
  rw [registerForm]
  split
  · have sum : (addWithCarry (m.readAt rd.width rm) (BitVec.zero rd.width) false).1 =
        m.readAt rd.width rm := by
      simp [addWithCarry, BitVec.zero]
    exact congrArg some ((m.writeResult_false rd _).trans (congrArg (m.writeAt rd) sum))
  · have zero : (Register.zero rd.view).isZero := rfl
    have copy : m.readAt rd.width (.zero rd.view) ||| m.readAt rd.width rm <<< 0 =
        m.readAt rd.width rm := by
      rw [Machine.readAt_of_isZero zero, BitVec.shiftLeft_zero, BitVec.zero_or]
    exact congrArg some ((m.writeResult_false rd _).trans (congrArg (m.writeAt rd) copy))

/-- A shift to the left moves the bits that stay. -/
theorem execute_leftShift {amount : Nat} (h : amount < rd.width) :
    (Form.bitfield .ubfm rd rn ((rd.width - amount) % rd.width) (rd.width - 1 - amount)).execute m =
      some (m.writeAt rd (m.readAt rd.width rn <<< amount)) := by
  have moved := BitfieldOp.apply_low amount (m.readAt rd.width rd) (m.readAt rd.width rn)
    (show 0 < rd.width - amount by omega) (by omega) false
  have last : rd.width - 1 - amount = rd.width - amount - 1 := by omega
  refine congrArg (fun x => some (m.writeAt rd x)) ?_
  rw [last]
  refine moved.trans (BitVec.eq_of_getLsbD_eq fun k hk => ?_)
  simp only [Bool.false_eq_true, if_false, BitVec.getLsbD_shiftLeft, BitVec.getLsbD_setWidth]
  by_cases below : k < amount
  · rw [decide_eq_true below]
    simp only [Bool.not_true, Bool.and_false, Bool.false_and]
  · rw [decide_eq_true (show k - amount < rd.width by omega),
      decide_eq_true (show k - amount < rd.width - amount by omega), Bool.true_and, Bool.true_and]

/-- A shift leaves the shifted value. -/
theorem execute_of_shiftForm {shift : Shift} {amount : Nat} {f : Form}
    (h : shiftForm rd rn shift amount = .ok f) :
    f.execute m = some (m.writeAt rd (shift.apply (m.readAt rd.width rn) amount)) := by
  rw [shiftForm] at h
  obtain ⟨hamount, h⟩ := and_of_require_bind_eq_ok h
  obtain ⟨-, h⟩ := and_of_require_bind_eq_ok h
  have hamount : amount < rd.width := of_decide_eq_true hamount
  cases shift with
  | lsl =>
    dsimp only at h
    rw [leftShift_eq hamount] at h
    obtain rfl := Except.ok.inj h
    exact execute_leftShift m hamount
  | lsr =>
    obtain rfl := Except.ok.inj h
    exact congrArg (fun x => some (m.writeAt rd x)) (BitfieldOp.apply_high _ _ hamount false)
  | asr =>
    obtain rfl := Except.ok.inj h
    exact congrArg (fun x => some (m.writeAt rd x)) (BitfieldOp.apply_high _ _ hamount true)
  | ror =>
    obtain rfl := Except.ok.inj h
    exact congrArg (fun x => some (m.writeAt rd x)) (extractLsb'_append_self hamount _)

/-- An extension keeps the low bits. -/
theorem getLsbD_extend {extend : Extend} {w k : Nat} (hk : k < w) (hsource : k < extend.sourceBits)
    (x : BitVec 64) : (extend.apply w x).getLsbD k = x.getLsbD k := by
  rw [Extend.apply]
  split
  · rw [BitVec.getLsbD_signExtend, if_pos hsource, BitVec.getLsbD_setWidth, decide_eq_true hk,
      decide_eq_true hsource, Bool.true_and, Bool.true_and]
  · rw [BitVec.getLsbD_setWidth, BitVec.getLsbD_setWidth, decide_eq_true hk,
      decide_eq_true hsource, Bool.true_and, Bool.true_and]

/-- A value need not be extended if the shift moves out all bits that do not come from it. -/
theorem shiftLeft_extend {extend : Extend} {w amount : Nat} (hw : w ≤ extend.sourceBits + amount)
    (x : BitVec 64) : extend.apply w x <<< amount = x.setWidth w <<< amount := by
  refine BitVec.eq_of_getLsbD_eq fun k hk => ?_
  rw [BitVec.getLsbD_shiftLeft, BitVec.getLsbD_shiftLeft]
  by_cases below : k < amount
  · simp [below]
  · rw [getLsbD_extend (by omega) (by omega), BitVec.getLsbD_setWidth,
      decide_eq_true (show k - amount < w by omega), Bool.true_and]

/-- An extension leaves the extended and then shifted value. -/
theorem execute_of_extendForm {extend : Extend} {amount : Nat} {f : Form}
    (h : extendForm rd rn extend amount = .ok f) :
    f.execute m = some (m.writeAt rd (extend.apply rd.width (m.read rn) <<< amount)) := by
  rw [extendForm] at h
  obtain ⟨hamount, h⟩ := and_of_require_bind_eq_ok h
  obtain ⟨-, h⟩ := and_of_require_bind_eq_ok h
  have hamount : amount < rd.width := of_decide_eq_true hamount
  rw [Bits.difference_of_le hamount.le] at h
  obtain ⟨rotation, hrotation, h⟩ := exists_of_bind_eq_ok h
  obtain rfl : rd.width - amount = rotation := Except.ok.inj hrotation
  have rotation := rotation_cases hamount
  have width := rd.width_le
  dsimp only at h
  split at h
  · next shift =>
    rw [leftShift_eq hamount] at h
    obtain rfl := Except.ok.inj h
    have source : rd.width ≤ extend.sourceBits + amount := by
      rcases shift with wide | ⟨some, room⟩
      · omega
      · omega
    rw [execute_leftShift m hamount, shiftLeft_extend source]
    rfl
  · next fits =>
    obtain rfl := Except.ok.inj h
    obtain ⟨source_pos, narrow⟩ : 0 < extend.sourceBits ∧
        (extend.sourceBits = 64 ∨ extend.sourceBits ≤ 32) := by
      cases extend <;> decide
    have source : extend.sourceBits ≤ rd.width := by
      rw [Register.width]
      split <;> omega
    have moved := BitfieldOp.apply_low amount (m.readAt rd.width rd) (m.readAt rd.width rn)
      source_pos (by omega) extend.isSigned
    have last : min (extend.sourceBits - 1) (rd.width - 1) = extend.sourceBits - 1 := by omega
    refine congrArg (fun x => some (m.writeAt rd x)) ?_
    rw [last]
    refine moved.trans ?_
    rw [Machine.readAt, BitVec.setWidth_setWidth_of_le _ source, Extend.apply]

end Move

/-- A register other than the zero register is copied, to the stack pointer as well. -/
theorem Emit.runs_copy {s : Emitter} {m : Machine} {rd rm : Register} (hrd : rd.IsBuilt)
    (hrm : rm.IsBuilt) (hzero : rm.isZero = false) :
    (mov rd (.register rm)).Runs s m fun _ p m' =>
      p = s.pool ∧ m' = m.writeAt rd (m.readAt rd.width rm) := by
  rw [mov, if_neg (by simp [hzero])]
  have within : (Move.registerForm rd rm).Within (Eq rd) false :=
    Move.within_registerForm hrd hrm rfl
  exact .terminal within.isBuilt fun _ => ⟨_, Move.execute_registerForm m, rfl, rfl⟩

/-- **A move leaves the value of its operand** in a destination other than the stack pointer, at the
width of the destination, and changes nothing else.

**Proof sketch.** A register takes one form, which is executed
(`AArch64.Move.execute_registerForm`, `AArch64.Move.execute_of_shiftForm`,
`AArch64.Move.execute_of_extendForm`). The zero register is moved as the immediate zero. -/
theorem Emit.runs_mov {s : Emitter} {m : Machine} {rd : Register} {operand : Operand}
    (hrd : rd.IsBuilt) (hstack : rd.isStack = false)
    (hoperand : ∀ r ∈ operand.register?, r.IsBuilt) :
    (mov rd operand).Runs s m fun _ p m' =>
      p = s.pool ∧ m' = m.writeAt rd (operand.value m rd.width) := by
  have built : ∀ {f : Form}, f.Within (Eq rd) false → ∀ r ∈ f.registers, r.IsBuilt :=
    fun h => h.isBuilt
  cases operand with
  | immediate imm => exact runs_movImmediate hrd hstack imm
  | register rm =>
    cases hzero : rm.isZero with
    | false => exact runs_copy hrd (hoperand rm rfl) hzero
    | true =>
      rw [mov, if_pos hzero]
      refine (runs_movImmediate hrd hstack 0).mono ?_
      rintro _ p m' ⟨hp, rfl⟩
      refine ⟨hp, ?_⟩
      rw [Operand.value, Machine.readAt_of_isZero hzero]
      rfl
  | shifted rn shift amount =>
    exact .lift_bind fun f hf =>
      .terminal (built (Move.within_of_shiftForm hrd (hoperand rn rfl) rfl hf))
        fun _ => ⟨_, Move.execute_of_shiftForm m hf, rfl, rfl⟩
  | extended rn extend amount =>
    exact .lift_bind fun f hf =>
      .terminal (built (Move.within_of_extendForm hrd (hoperand rn rfl) rfl hf))
        fun _ => ⟨_, Move.execute_of_extendForm m hf, rfl, rfl⟩

end AArch64
