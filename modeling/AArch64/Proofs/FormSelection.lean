import AArch64.Emitter.LoadStore
import AArch64.Emitter.Logical
import AArch64.Proofs.CheckedArithmetic
import AArch64.Proofs.FormCategory
import AArch64.Proofs.Registers

/-!
# The forms that are selected

An operation is emitted in the first form that holds its arguments. Each choice is taken apart
once: which form is chosen, with which registers, and what its arguments have passed.

## Main definitions

* `AArch64.Move.Selects` — the instructions that are chosen for a value.

## Main results

* `AArch64.Move.immediateForms_cases` — instructions are chosen for an immediate, or it is rejected.
* `AArch64.Move.cases_of_mem_immediateForms`, `AArch64.Move.cases_of_shiftForm`,
  `AArch64.Move.exists_of_extendForm` — the instructions of moves.
* `AArch64.AddSub.exists_of_immediateForm?`, `AArch64.AddSub.cases_of_registerForm?` — those of
  additions and subtractions.
* `AArch64.Logical.exists_of_immediateForm?`, `AArch64.Logical.eq_of_registerForm?` — those of
  logical operations.
* `AArch64.LoadStore.offsetForm?_eq`, `AArch64.LoadStore.cases_of_offsetForm?`,
  `AArch64.LoadStore.eq_of_indexedForm?`, `AArch64.LoadStore.eq_of_registerForm?` — those of loads
  and stores.
-/

set_option autoImplicit false

namespace AArch64

variable {rd rn rm : Register} {f : Form}

/-! ## Moves -/

namespace Move

/-- A sequence moves halfwords. -/
theorem exists_of_mem_sequence {halfwords : List Nat} {inverted : Bool}
    (h : f ∈ sequence rd halfwords inverted) : ∃ op imm16 hw, f = .moveWide op rd imm16 hw := by
  rw [sequence] at h
  dsimp only at h
  split at h
  · cases h
  · rcases List.mem_cons.1 h with rfl | h
    · split <;> exact ⟨_, _, _, rfl⟩
    · obtain ⟨_, -, rfl⟩ := List.mem_map.1 h
      exact ⟨_, _, _, rfl⟩

/-- The instructions that are chosen for a value, the first that hold it: a halfword, the complement
of one, a bitmask immediate, and else a sequence of halfwords. -/
inductive Selects (rd : Register) (value : Nat) : List Form → Prop
  /-- The value is a halfword in its place. -/
  | halfword {imm16 hw : Nat} (direct : Immediate.moveWide? value rd.width = some (imm16, hw)) :
    Selects rd value [.moveWide .movz rd imm16 hw]
  /-- The complement is a halfword in its place. -/
  | complement {imm16 hw : Nat} (direct : Immediate.moveWide? value rd.width = none)
    (inverse : Immediate.moveWide? (Immediate.complement value rd.width) rd.width =
      some (imm16, hw)) :
    Selects rd value [.moveWide .movn rd imm16 hw]
  /-- The value is a bitmask immediate. -/
  | bitmask {bitmask : Bitmask} (direct : Immediate.moveWide? value rd.width = none)
    (inverse : Immediate.moveWide? (Immediate.complement value rd.width) rd.width = none)
    (encode : Bitmask.encode value rd.width = .ok (some bitmask)) (zero : rd.isZero = false) :
    Selects rd value [.logicalImmediate .orr rd (.zero rd.view) bitmask]
  /-- The value is neither, or it is a bitmask immediate for the zero register. -/
  | sequence (direct : Immediate.moveWide? value rd.width = none)
    (inverse : Immediate.moveWide? (Immediate.complement value rd.width) rd.width = none)
    (encode : rd.isZero = false → Bitmask.encode value rd.width = .ok none) :
    Selects rd value
      (sequence rd ((List.range (rd.width / 16)).map (Immediate.halfword value))
        (prefersInverted ((List.range (rd.width / 16)).map (Immediate.halfword value))))

/-- Instructions are chosen for the immediates that the width admits, and the others are
rejected. No arithmetic traps. -/
theorem immediateForms_cases (rd : Register) (imm : Int) :
    (∃ imm', Immediate.atWidth? imm rd.width = some imm' ∧
      ∃ fs, immediateForms rd imm = .ok fs ∧ Selects rd (Immediate.toBits imm' rd.width) fs) ∨
    Immediate.atWidth? imm rd.width = none ∧
      immediateForms rd imm = .error (.rejected (.immediateRange imm)) := by
  obtain ⟨k, hk, width⟩ := rd.exists_width_eq
  have narrow : rd.width / 16 ≤ 4 := by rcases rd.width_eq_or with h | h <;> omega
  rw [immediateForms]
  cases Immediate.atWidth? imm rd.width with
  | none => exact .inr ⟨rfl, rfl⟩
  | some imm' =>
    refine .inl ⟨imm', rfl, ?_⟩
    dsimp only
    generalize Immediate.toBits imm' rd.width = value
    obtain ⟨bitmask?, hencode⟩ : ∃ bitmask?, Bitmask.encode value rd.width = .ok bitmask? :=
      ⟨_, width ▸ Bitmask.encode_eq value hk⟩
    rw [Immediate.moveWide_eq value narrow, Immediate.moveWide_eq _ narrow, hencode,
      Immediate.halfwords_eq value narrow]
    cases direct : Immediate.moveWide? value rd.width with
    | some p => exact ⟨_, rfl, .halfword direct⟩
    | none =>
      cases inverse : Immediate.moveWide? (Immediate.complement value rd.width) rd.width with
      | some p => exact ⟨_, rfl, .complement direct inverse⟩
      | none =>
        cases bitmask? with
        | none => exact ⟨_, rfl, .sequence direct inverse fun _ => hencode⟩
        | some b =>
          cases hzero : rd.isZero with
          | false => exact ⟨_, rfl, .bitmask direct inverse hencode hzero⟩
          | true => exact ⟨_, rfl, .sequence direct inverse fun h => by cases hzero.symm.trans h⟩

/-- The instructions of an immediate are those of its bits. -/
theorem exists_of_immediateForms {imm : Int} {fs : List Form} (h : immediateForms rd imm = .ok fs) :
    ∃ imm', Immediate.atWidth? imm rd.width = some imm' ∧
      Selects rd (Immediate.toBits imm' rd.width) fs := by
  rcases immediateForms_cases rd imm with ⟨imm', himm, gs, hgs, selects⟩ | ⟨-, rejected⟩
  · rw [hgs] at h
    obtain rfl := Except.ok.inj h
    exact ⟨imm', himm, selects⟩
  · rw [rejected] at h
    cases h

/-- An immediate is moved in halfwords, or combined with the zero register. -/
theorem cases_of_mem_immediateForms {imm : Int} {fs : List Form}
    (h : immediateForms rd imm = .ok fs) (hf : f ∈ fs) :
    (∃ op imm16 hw, f = .moveWide op rd imm16 hw) ∨
      rd.isZero = false ∧ ∃ bitmask, f = .logicalImmediate .orr rd (.zero rd.view) bitmask := by
  obtain ⟨imm', -, selects⟩ := exists_of_immediateForms h
  cases selects with
  | halfword => exact .inl ⟨_, _, _, List.mem_singleton.1 hf⟩
  | complement => exact .inl ⟨_, _, _, List.mem_singleton.1 hf⟩
  | bitmask _ _ _ zero => exact .inr ⟨zero, _, List.mem_singleton.1 hf⟩
  | sequence => exact .inl (exists_of_mem_sequence hf)

/-- A shift to the left by less than the width is a bitfield move. -/
theorem leftShift_eq {amount : Nat} (h : amount < rd.width) :
    leftShift rd rn amount =
      .ok (.bitfield .ubfm rd rn ((rd.width - amount) % rd.width) (rd.width - 1 - amount)) := by
  rw [leftShift, Bits.difference_of_le (by omega), Bits.difference_of_le (by omega)]
  rfl

/-- A shift is a bitfield move, and a rotation extracts from a pair of equal registers. -/
theorem cases_of_shiftForm {shift : Shift} {amount : Nat}
    (h : shiftForm rd rn shift amount = .ok f) :
    amount < rd.width ∧ rn.isStack = false ∧
      ((∃ op immr imms, f = .bitfield op rd (rn.withView rd.view) immr imms) ∨
        shift = .ror ∧ f = .extract rd (rn.withView rd.view) (rn.withView rd.view) amount) := by
  rw [shiftForm] at h
  obtain ⟨hamount, h⟩ := and_of_require_bind_eq_ok h
  obtain ⟨hstack, h⟩ := and_of_require_bind_eq_ok h
  refine ⟨of_decide_eq_true hamount, by simpa using hstack, ?_⟩
  cases shift with
  | ror => exact .inr ⟨rfl, (Except.ok.inj h).symm⟩
  | lsl =>
    dsimp only at h
    rw [leftShift_eq (of_decide_eq_true hamount)] at h
    exact .inl ⟨_, _, _, (Except.ok.inj h).symm⟩
  | _ => exact .inl ⟨_, _, _, (Except.ok.inj h).symm⟩

/-- An extension is a bitfield move. -/
theorem exists_of_extendForm {extend : Extend} {amount : Nat}
    (h : extendForm rd rn extend amount = .ok f) :
    amount < rd.width ∧ rn.isStack = false ∧
      ∃ op immr imms, f = .bitfield op rd (rn.withView rd.view) immr imms := by
  rw [extendForm] at h
  obtain ⟨hamount, h⟩ := and_of_require_bind_eq_ok h
  obtain ⟨hstack, h⟩ := and_of_require_bind_eq_ok h
  have hamount : amount < rd.width := of_decide_eq_true hamount
  refine ⟨hamount, by simpa using hstack, ?_⟩
  rw [Bits.difference_of_le (by omega)] at h
  obtain ⟨rotation, -, h⟩ := exists_of_bind_eq_ok h
  dsimp only at h
  split at h
  · rw [leftShift_eq hamount] at h
    exact ⟨_, _, _, (Except.ok.inj h).symm⟩
  · exact ⟨_, _, _, (Except.ok.inj h).symm⟩

end Move

/-! ## Addition and subtraction -/

namespace AddSub

variable {op : AddSubOp}

/-- An immediate is added, or its negative is subtracted. -/
theorem exists_of_immediateForm? {imm : Int} (h : immediateForm? op rd rn imm = .ok (some f)) :
    allowsStack op rd rn ∧ ∃ op' imm12 shifted, (op' = op ∨ op' = op.dual) ∧
      f = .addSubImmediate op' rd rn imm12 shifted := by
  rw [immediateForm?] at h
  split at h
  · split at h
    · cases h
    · next hallows =>
      refine ⟨by simpa using hallows, ?_⟩
      split at h
      · obtain ⟨⟩ := h
        exact ⟨op, _, _, .inl rfl, rfl⟩
      · split at h
        · cases h
        · obtain ⟨negative, -, h⟩ := exists_of_bind_eq_ok h
          split at h
          · obtain ⟨⟩ := h
            exact ⟨op.dual, _, _, .inr rfl, rfl⟩
          · cases h
  · cases h

/-- A shifted register is added as it is, or extended where the stack pointer is involved. -/
theorem cases_of_shiftedForm? {shift : Shift} {amount : Nat}
    (h : shiftedForm? op rd rn rm shift amount = some f) :
    f = .addSubShifted op rd rn rm shift amount ∨
      shift = .lsl ∧ f = .addSubExtended op rd rn rm (if rd.is64 then .uxtx else .uxtw) amount := by
  rw [shiftedForm?] at h
  split at h
  · cases h
  · split at h
    · split at h
      · next hallows =>
        simp only [Bool.and_eq_true, decide_eq_true_eq] at hallows
        exact .inr ⟨hallows.1.2, (Option.some.inj h).symm⟩
      · cases h
    · split at h
      · exact .inl (Option.some.inj h).symm
      · cases h

/-- The operand of a register form is a register, shifted or extended. -/
theorem cases_of_registerForm? {operand : Operand}
    (h : registerForm? op rd rn operand = some f) :
    ∃ rm, operand.register? = some rm ∧
      ((∃ shift amount, f = .addSubShifted op rd rn rm shift amount) ∨
        ∃ extend amount, f = .addSubExtended op rd rn rm extend amount) := by
  have shifted : ∀ {rm shift amount}, shiftedForm? op rd rn rm shift amount = some f →
      (∃ shift amount, f = .addSubShifted op rd rn rm shift amount) ∨
        ∃ extend amount, f = .addSubExtended op rd rn rm extend amount := by
    intro rm shift amount h
    rcases cases_of_shiftedForm? h with h | ⟨-, h⟩
    · exact .inl ⟨_, _, h⟩
    · exact .inr ⟨_, _, h⟩
  cases operand with
  | immediate imm => cases h
  | register rm => exact ⟨rm, rfl, shifted h⟩
  | shifted rm shift amount => exact ⟨rm, rfl, shifted h⟩
  | extended rm extend amount =>
    rw [registerForm?] at h
    split at h
    · exact ⟨rm, rfl, .inr ⟨_, _, (Option.some.inj h).symm⟩⟩
    · cases h

end AddSub

/-! ## Logical operations -/

namespace Logical

variable {op : LogicalOp} {invert : Bool}

/-- A bitmask immediate is combined with a register: what the immediate is encoded as, or its
complement. -/
theorem exists_of_immediateForm? {imm : Int}
    (h : immediateForm? op invert rd rn imm = .ok (some f)) :
    ∃ imm' bitmask, Immediate.atWidth? imm rd.width = some imm' ∧
      Bitmask.encode (if invert then
          Immediate.complement (Immediate.toBits imm' rd.width) rd.width
        else Immediate.toBits imm' rd.width) rd.width = .ok (some bitmask) ∧
      f = .logicalImmediate op rd rn bitmask := by
  rw [immediateForm?] at h
  split at h
  · next imm' himm =>
    refine ⟨imm', ?_⟩
    dsimp only at h
    -- the registers that are refused do not matter
    generalize (if invert then _ else _) = value at h ⊢
    generalize (rn.isStack || _) = refused at h
    split at h
    · cases h
    · obtain ⟨bitmask?, hencode, h⟩ := exists_of_bind_eq_ok h
      split at h
      · next bitmask =>
        obtain ⟨⟩ := h
        exact ⟨bitmask, himm, ofTrap_eq_ok_iff.1 hencode, rfl⟩
      · cases h
  · cases h

/-- The form that is chosen for a register is the shifted one. -/
theorem eq_of_registerForm? {shift : Shift} {amount : Nat}
    (h : registerForm? op invert rd rn rm shift amount = some f) :
    f = .logicalShifted op invert rd rn rm shift amount := by
  rw [registerForm?] at h
  split at h
  · cases h
  · exact (Option.some.inj h).symm

/-- A register with an immediate or with a shifted register. -/
theorem cases_of_directForm? {operand : Operand}
    (h : directForm? op invert rd rn operand = .ok (some f)) :
    (∃ bitmask, f = .logicalImmediate op rd rn bitmask) ∨
      ∃ rm shift amount, operand.register? = some rm ∧
        f = .logicalShifted op invert rd rn rm shift amount := by
  cases operand with
  | immediate imm =>
    obtain ⟨-, bitmask, -, -, hf⟩ := exists_of_immediateForm? h
    exact .inl ⟨bitmask, hf⟩
  | register rm => exact .inr ⟨rm, _, _, rfl, eq_of_registerForm? (Except.ok.inj h)⟩
  | shifted rm => exact .inr ⟨rm, _, _, rfl, eq_of_registerForm? (Except.ok.inj h)⟩
  | extended => cases h

end Logical

/-! ## Loads and stores -/

namespace LoadStore

variable {op : LoadStoreOp} {rt base index : Register} {offset : Int} {mode : IndexMode}

/-- The checks of an access at an unsigned offset. -/
theorem check_loadStoreUnsigned_iff {imm12 : Nat} :
    (Form.loadStoreUnsigned op rt base imm12).check = .ok () ↔
      Form.checkTransfer op rt = .ok () ∧ imm12 < 4096 ∧ base.isZero = false := by
  simp [Form.check, bind_eq_ok_iff, require_eq_ok_iff]

/-- The checks of an access that updates its base, or at an unscaled offset. -/
theorem check_loadStoreIndexed_iff :
    (Form.loadStoreIndexed op rt base offset mode).check = .ok () ↔
      Form.checkTransfer op rt = .ok () ∧ Immediate.isUnscaledOffset offset ∧
        base.isZero = false ∧ (mode = .unscaled ∨ rt.code ≠ base.code) := by
  simp [Form.check, bind_eq_ok_iff, require_eq_ok_iff]

/-- The form that holds an offset, without checked arithmetic. -/
theorem offsetForm?_eq (op : LoadStoreOp) (rt base : Register) (offset : Int) :
    offsetForm? op rt base offset = .ok
      (if 0 ≤ offset ∧ offset % 2 ^ op.sizeLog2 rt = 0 ∧ offset / 2 ^ op.sizeLog2 rt < 4096 then
        some (.loadStoreUnsigned op rt base (offset / 2 ^ op.sizeLog2 rt).toNat)
      else if Immediate.isUnscaledOffset offset then
        some (.loadStoreIndexed op rt base offset .unscaled)
      else none) := by
  have size := op.sizeLog2_lt rt
  have scaled := congrArg Fault.ofTrap
    (Immediate.isScaledOffset_eq offset (show op.sizeLog2 rt < 63 by omega))
  have shifted : Fault.ofTrap (Bits.shiftRightSigned 64 offset (op.sizeLog2 rt)) =
      .ok (offset / 2 ^ op.sizeLog2 rt) := by
    rw [Bits.shiftRightSigned_of_lt (by omega)]
    rfl
  unfold offsetForm?
  dsimp only
  rw [scaled, shifted]
  show (if decide _ then _ else _) = _
  simp only [decide_eq_true_eq]
  split
  · rfl
  · split
    · rfl
    · rfl

/-- An offset is scaled by the size of the access, or unscaled. -/
theorem cases_of_offsetForm? (h : offsetForm? op rt base offset = .ok (some f)) :
    f = .loadStoreUnsigned op rt base (offset / 2 ^ op.sizeLog2 rt).toNat ∨
      Immediate.isUnscaledOffset offset ∧ f = .loadStoreIndexed op rt base offset .unscaled := by
  rw [offsetForm?_eq] at h
  have h := Except.ok.inj h
  split at h
  · exact .inl (Option.some.inj h).symm
  · split at h
    · next near => exact .inr ⟨near, (Option.some.inj h).symm⟩
    · cases h

/-- The form that is chosen for an offset of 9 bits. -/
theorem eq_of_indexedForm? (h : indexedForm? op rt base offset mode = some f) :
    Immediate.isUnscaledOffset offset ∧ f = .loadStoreIndexed op rt base offset mode := by
  rw [indexedForm?] at h
  split at h
  · next hoffset => exact ⟨hoffset, (Option.some.inj h).symm⟩
  · cases h

/-- The index is read in the view of its extension. -/
theorem eq_of_registerForm? {extend : Extend} {amount : Nat}
    (h : registerForm? op rt base index extend amount = some f) :
    extend.isAddress ∧ (amount = 0 ∨ amount = op.sizeLog2 rt) ∧
      f = .loadStoreRegister op rt base
        (index.withView (if extend = .uxtw ∨ extend = .sxtw then .w else .x)) extend
        (amount ≠ 0) := by
  rw [registerForm?] at h
  split at h
  · next hfits => exact ⟨hfits.1, hfits.2, (Option.some.inj h).symm⟩
  · cases h

end LoadStore

end AArch64
