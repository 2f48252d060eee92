import AArch64.Proofs.Effects
import AArch64.Proofs.Machine

/-!
# What the word of a form does

The word of a form that passes its checks does what the form says with the registers that it names.
The checks keep the stack pointer out of the fields in which 31 is the zero register, and the zero
register out of those in which it is the stack pointer.

## Main definitions

* `AArch64.Form.execute` — what a form does.

## Main results

* `AArch64.Form.step_word` — so does its word.
-/

set_option autoImplicit false

namespace AArch64

/-! ## Forms -/

namespace LoadStoreOp

/-- Whether a load keeps the sign. -/
def isSigned (op : LoadStoreOp) : Bool :=
  op = .ldrsb ∨ op = .ldrsh ∨ op = .ldrsw

/-- What a load makes of the bytes: it extends them to the width of the transfer register, with the
sign or with zeros, and writes zeros above. -/
def extended {n : Nat} (op : LoadStoreOp) (rt : Register) (value : BitVec n) : BitVec 64 :=
  if op.isSigned then (value.signExtend rt.width).setWidth 64 else value.setWidth 64

/-- How many bytes are accessed. -/
def size (op : LoadStoreOp) (rt : Register) : Nat :=
  2 ^ op.sizeLog2 rt

end LoadStoreOp

/-- Loads or stores a register at an address. -/
def Machine.transfer (m : Machine) (op : LoadStoreOp) (rt : Register) (address : BitVec 64) :
    Machine :=
  if op.isLoad then m.load rt address (op.size rt) (op.extended rt)
  else m.store rt address (op.size rt)

namespace Form

/-- What a form does. -/
def execute (f : Form) (m : Machine) : Option Machine :=
  match f with
  | .addSubImmediate op rd rn imm12 shifted =>
    some (m.writeResult op.setsFlags rd (op.apply (m.readAt rd.width rn)
      (BitVec.ofNat rd.width (imm12 * if shifted then 4096 else 1))))
  | .addSubShifted op rd rn rm shift amount =>
    some (m.writeResult op.setsFlags rd (op.apply (m.readAt rd.width rn)
      (shift.apply (m.readAt rd.width rm) amount)))
  | .addSubExtended op rd rn rm extend amount =>
    some (m.writeResult op.setsFlags rd (op.apply (m.readAt rd.width rn)
      (extend.apply rd.width (m.read rm) <<< amount)))
  | .logicalImmediate op rd rn bitmask =>
    (bitmask.value? rd.width).map fun value =>
      m.writeResult (op = .ands) rd (op.apply (m.readAt rd.width rn) (BitVec.ofNat rd.width value))
  | .logicalShifted op invert rd rn rm shift amount =>
    let operand := shift.apply (m.readAt rd.width rm) amount
    some (m.writeResult (op = .ands) rd (op.apply (m.readAt rd.width rn)
      (if invert then ~~~operand else operand)))
  | .moveWide op rd imm16 hw =>
    some (m.writeAt rd (op.apply (m.readAt rd.width rd) imm16 (16 * hw)))
  | .bitfield op rd rn immr imms =>
    some (m.writeAt rd (op.apply (m.readAt rd.width rd) (m.readAt rd.width rn) immr imms))
  | .extract rd rn rm lsb =>
    some (m.writeAt rd
      ((m.readAt rd.width rn ++ m.readAt rd.width rm).extractLsb' lsb rd.width))
  | .loadStoreUnsigned op rt base imm12 =>
    some (m.transfer op rt (m.read base + BitVec.ofNat 64 (imm12 * op.size rt)))
  | .loadStoreIndexed op rt base offset mode =>
    let address := m.read base + BitVec.ofInt 64 offset
    match mode with
    | .unscaled => some (m.transfer op rt address)
    | .preIndex => some ((m.transfer op rt address).write base address)
    | .postIndex => some ((m.transfer op rt (m.read base)).write base address)
  | .loadStoreRegister op rt base index extend scaled =>
    some (m.transfer op rt (m.read base +
      extend.apply 64 (m.read index) <<< if scaled then op.sizeLog2 rt else 0))
  | .branchRegister .. | .capabilityAddImmediate .. | .capabilityAddExtended ..
  | .capabilityBranch .. => none

end Form

/-! ## Registers of fields -/

namespace Register

variable {r : Register}

/-- The field of a general-purpose register stands for the register, whatever 31 means. -/
theorem code_ofField_of_isGeneral (h : r.isGeneral) (stack : Bool) :
    (ofField (BitVec.ofNat 5 r.number) .x stack).code = r.code := by
  have lt := r.isGeneral_iff.1 h
  have number : r.number = r.code.toNat := if_pos h
  have field : (BitVec.ofNat 5 r.code.toNat).toNat = r.code.toNat := by
    rw [BitVec.toNat_ofNat, Nat.mod_eq_of_lt (by omega)]
  have other : BitVec.ofNat 5 r.code.toNat ≠ 31 := by
    intro last
    have code : r.code.toNat = 31 := field.symm.trans (congrArg BitVec.toNat last)
    omega
  rw [number, ofField, if_neg other]
  refine BitVec.eq_of_toNat_eq ?_
  rw [BitVec.toNat_setWidth, field, Nat.mod_eq_of_lt (by omega)]

/-- A field in which 31 is the zero register gives back any other register than the stack pointer.
-/
theorem code_orZero (hr : r.IsBuilt) (hstack : r.isStack = false) :
    (orZero r.number).code = r.code := by
  cases general : r.isGeneral with
  | true => exact code_ofField_of_isGeneral general false
  | false =>
    rcases hr.isZero_or_isStack (by simp [general]) with zero | stack
    · rw [orZero, number, general]
      exact (of_decide_eq_true zero).symm
    · rw [hstack] at stack
      cases stack

/-- A field in which 31 is the stack pointer gives back any other register than the zero register.
-/
theorem code_orStack (hr : r.IsBuilt) (hzero : r.isZero = false) :
    (orStack r.number).code = r.code := by
  cases general : r.isGeneral with
  | true => exact code_ofField_of_isGeneral general true
  | false =>
    rcases hr.isZero_or_isStack (by simp [general]) with zero | stack
    · rw [hzero] at zero
      cases zero
    · rw [orStack, number, general]
      exact (of_decide_eq_true stack).symm

end Register

/-! ## Decoded forms -/

namespace Form

section Decoded

variable {f : Form} {rd rn rm rt base index : Register} (m : Machine)

/-- What a form is decoded as in the base instruction set. -/
abbrev instruction (f : Form) : Instruction :=
  f.decoded .a64 0

/-- The instruction of a form has the width of the destination. -/
theorem width_instruction (h : f.wide? = some rd) : f.instruction.width = rd.width := by
  rw [Instruction.width, is64_decoded .a64 0 h, Register.width]

/-- The instruction of an addition or a subtraction has its operation. -/
theorem addSubOp_instruction {op : AddSubOp} (h : f.addSub? = some op) :
    f.instruction.addSubOp = op := by
  obtain ⟨sub, flags⟩ := addSub_decoded .a64 0 h
  rw [Instruction.addSubOp, sub, flags]
  cases op <;> rfl

/-- The destination of an operation that reads field 31 as the stack pointer unless it sets the
flags. -/
theorem code_destination {flags : Bool} {ifStack ifZero : Rejection} (hrd : rd.IsBuilt)
    (h : checkDestination flags rd ifStack ifZero = .ok ()) :
    (if flags then Register.orZero rd.number else Register.orStack rd.number).code =
      rd.code := by
  rw [checkDestination] at h
  cases flags with
  | true =>
    rw [if_pos rfl, require_eq_ok_iff, Bool.not_eq_true'] at h
    exact Register.code_orZero hrd h
  | false =>
    rw [if_neg Bool.false_ne_true, require_eq_ok_iff, Bool.not_eq_true'] at h
    exact Register.code_orStack hrd h

/-- A 12-bit immediate is read off its fields. -/
theorem shiftedImmediate_of_fields {i : Instruction} {imm12 : Nat} {shifted : Bool}
    (himm : (i.bits 10 12).toNat = imm12) (hshift : i.bit 22 = shifted) (w : Nat) :
    i.shiftedImmediate w = BitVec.ofNat w (imm12 * if shifted then 4096 else 1) := by
  refine BitVec.eq_of_toNat_eq ?_
  rw [Instruction.shiftedImmediate, BitVec.toNat_shiftLeft, BitVec.toNat_setWidth, himm, hshift,
    BitVec.toNat_ofNat, Nat.shiftLeft_eq, Nat.mod_mul_mod]
  cases shifted <;> rfl

/-- The immediate of the instruction is the one of the form, times 4096 if it is shifted. -/
theorem shiftedImmediate_instruction {op : AddSubOp} {imm12 : Nat} {shifted : Bool}
    (h : imm12 < 4096) (w : Nat) :
    (addSubImmediate op rd rn imm12 shifted).instruction.shiftedImmediate w =
      BitVec.ofNat w (imm12 * if shifted then 4096 else 1) := by
  have imm : (addSubImmediate op rd rn imm12 shifted).word.extractLsb' 10 12 =
      BitVec.ofNat 12 imm12 := by
    simp (disch := decide) only [word, BitVec.extractLsb'_append_eq_of_add_le,
      BitVec.extractLsb'_append_eq_of_le, Nat.reduceSub, BitVec.extractLsb'_eq_self]
  have shift : (addSubImmediate op rd rn imm12 shifted).word.getLsbD 22 = shifted := by
    simp (disch := decide) only [word, getLsbD_append_high, getLsbD_append_low, Nat.reduceSub,
      getLsbD_ofBool_zero]
  refine shiftedImmediate_of_fields ?_ ?_ w
  · rw [bits_decoded, imm, BitVec.toNat_ofNat, Nat.mod_eq_of_lt h]
  · rw [bit_decoded, shift]

/-- The instruction of an addition of an immediate does what the form does. -/
theorem execute_addSubImmediate {op : AddSubOp} {imm12 : Nat} {shifted : Bool}
    (h : (addSubImmediate op rd rn imm12 shifted).check = .ok ())
    (hbuilt : ∀ r ∈ (addSubImmediate op rd rn imm12 shifted).registers, r.IsBuilt) :
    (addSubImmediate op rd rn imm12 shifted).instruction.execute m =
      (addSubImmediate op rd rn imm12 shifted).execute m := by
  simp only [registers, List.forall_mem_cons] at hbuilt
  obtain ⟨hrd, hrn, -⟩ := hbuilt
  simp only [check, bind_eq_ok_iff, require_eq_ok_iff, decide_eq_true_eq, Bool.not_eq_true'] at h
  obtain ⟨himm, hzero, hdestination, -⟩ := h
  set i := (addSubImmediate op rd rn imm12 shifted).instruction
  have execute : i.execute m = some (m.writeResult i.setsFlags
      (if i.setsFlags then .orZero i.rd else .orStack i.rd)
      (i.addSubOp.apply (m.readAt i.width (.orStack i.rn)) (i.shiftedImmediate i.width))) := rfl
  rw [execute, (addSub_decoded .a64 0 rfl).2, rd_decoded .a64 0 rfl hrd, rn_decoded .a64 0 rfl hrn,
    addSubOp_instruction rfl, width_instruction rfl, shiftedImmediate_instruction himm,
    m.writeResult_congr _ (code_destination hrd hdestination),
    m.readAt_congr _ (Register.code_orStack hrn hzero)]
  rfl

/-- The instruction of an addition of a shifted register does what the form does. -/
theorem execute_addSubShifted {op : AddSubOp} {shift : Shift} {amount : Nat}
    (h : (addSubShifted op rd rn rm shift amount).check = .ok ())
    (hbuilt : ∀ r ∈ (addSubShifted op rd rn rm shift amount).registers, r.IsBuilt) :
    (addSubShifted op rd rn rm shift amount).instruction.execute m =
      (addSubShifted op rd rn rm shift amount).execute m := by
  obtain ⟨field, field', field'', -, -, flags, view⟩ := reads_decoded h hbuilt .a64 0
  simp only [registers, List.forall_mem_cons] at hbuilt
  obtain ⟨hrd, hrn, hrm, -⟩ := hbuilt
  simp only [check, bind_eq_ok_iff, require_eq_ok_iff, Bool.and_eq_true, Bool.not_eq_true'] at h
  obtain ⟨-, -, ⟨⟨hd, hn⟩, hm⟩, -⟩ := h
  set i := (addSubShifted op rd rn rm shift amount).instruction
  have execute : i.execute m = i.shift?.bind fun s =>
      some (m.writeResult i.setsFlags (.orZero i.rd) (i.addSubOp.apply
        (m.readAt i.width (.orZero i.rn)) (s.1.apply (m.readAt i.width (.orZero i.rm)) s.2))) := rfl
  rw [execute, view, Option.bind_some, flags, field, field', field'', addSubOp_instruction rfl,
    width_instruction rfl, m.writeResult_congr _ (Register.code_orZero hrd hd),
    m.readAt_congr _ (Register.code_orZero hrn hn), m.readAt_congr _ (Register.code_orZero hrm hm)]
  rfl

/-- The instruction of an addition of an extended register does what the form does. -/
theorem execute_addSubExtended {op : AddSubOp} {extend : Extend} {amount : Nat}
    (h : (addSubExtended op rd rn rm extend amount).check = .ok ())
    (hbuilt : ∀ r ∈ (addSubExtended op rd rn rm extend amount).registers, r.IsBuilt) :
    (addSubExtended op rd rn rm extend amount).instruction.execute m =
      (addSubExtended op rd rn rm extend amount).execute m := by
  obtain ⟨field, field', field'', -, -, flags, view⟩ := reads_decoded h hbuilt .a64 0
  simp only [registers, List.forall_mem_cons] at hbuilt
  obtain ⟨hrd, hrn, hrm, -⟩ := hbuilt
  simp only [check, bind_eq_ok_iff, require_eq_ok_iff, Bool.and_eq_true, Bool.not_eq_true'] at h
  obtain ⟨-, ⟨hn, hm⟩, hdestination, -⟩ := h
  set i := (addSubExtended op rd rn rm extend amount).instruction
  have execute : i.execute m = i.extend?.bind fun e =>
      some (m.writeResult i.setsFlags (if i.setsFlags then .orZero i.rd else .orStack i.rd)
        (i.addSubOp.apply (m.readAt i.width (.orStack i.rn))
          (e.1.apply i.width (m.read (.orZero i.rm)) <<< e.2))) := rfl
  rw [execute, view, Option.bind_some, flags, field, field', field'', addSubOp_instruction rfl,
    width_instruction rfl, m.writeResult_congr _ (code_destination hrd hdestination),
    m.readAt_congr _ (Register.code_orStack hrn hn), m.read_congr (Register.code_orZero hrm hm)]
  rfl

/-- A bitmask that is decoded without a trap has the value that it is decoded to. -/
theorem eq_of_decode_eq_ok {b : Bitmask} {value : Option Nat} (h : b.decode rd.width = .ok value) :
    value = b.value? rd.width := by
  obtain ⟨k, hk, width⟩ := rd.exists_width_eq
  rw [width, Bitmask.decode_eq b hk] at h
  rw [width]
  exact (Except.ok.inj h).symm

/-- The instruction of a combination with an immediate does what the form does. -/
theorem execute_logicalImmediate {op : LogicalOp} {bitmask : Bitmask}
    (h : (logicalImmediate op rd rn bitmask).check = .ok ())
    (hbuilt : ∀ r ∈ (logicalImmediate op rd rn bitmask).registers, r.IsBuilt) :
    (logicalImmediate op rd rn bitmask).instruction.execute m =
      (logicalImmediate op rd rn bitmask).execute m := by
  obtain ⟨field, field', -, opc, value⟩ := reads_decoded h hbuilt .a64 0
  simp only [registers, List.forall_mem_cons] at hbuilt
  obtain ⟨hrd, hrn, -⟩ := hbuilt
  simp only [check, bind_eq_ok_iff, require_eq_ok_iff, Bool.not_eq_true'] at h
  obtain ⟨-, -, hn, hdestination, -⟩ := h
  set i := (logicalImmediate op rd rn bitmask).instruction
  have operation : i.logicalOp = op := by rw [Instruction.logicalOp, opc, LogicalOp.ofField_field]
  have execute : i.execute m = i.logicalImmediate?.map fun v =>
      m.writeResult (i.logicalOp = .ands)
        (if i.logicalOp = .ands then .orZero i.rd else .orStack i.rd)
        (i.logicalOp.apply (m.readAt i.width (.orZero i.rn)) (BitVec.ofNat i.width v)) := by
    rw [Option.map_eq_bind]
    rfl
  rw [execute, operation, field, field', width_instruction rfl, eq_of_decode_eq_ok value,
    m.readAt_congr _ (Register.code_orZero hrn hn)]
  refine congrArg (Option.map · _) (funext fun v => ?_)
  have destination := code_destination hrd hdestination
  simp only [decide_eq_true_eq] at destination
  exact m.writeResult_congr _ destination _

/-- The instruction of a combination with a shifted register does what the form does. -/
theorem execute_logicalShifted {op : LogicalOp} {invert : Bool} {shift : Shift} {amount : Nat}
    (h : (logicalShifted op invert rd rn rm shift amount).check = .ok ())
    (hbuilt : ∀ r ∈ (logicalShifted op invert rd rn rm shift amount).registers, r.IsBuilt) :
    (logicalShifted op invert rd rn rm shift amount).instruction.execute m =
      (logicalShifted op invert rd rn rm shift amount).execute m := by
  obtain ⟨field, field', field'', -, opc, inverted, view⟩ := reads_decoded h hbuilt .a64 0
  simp only [registers, List.forall_mem_cons] at hbuilt
  obtain ⟨hrd, hrn, hrm, -⟩ := hbuilt
  simp only [check, bind_eq_ok_iff, require_eq_ok_iff, Bool.and_eq_true, Bool.not_eq_true'] at h
  obtain ⟨-, ⟨⟨hd, hn⟩, hm⟩, -⟩ := h
  set i := (logicalShifted op invert rd rn rm shift amount).instruction
  have operation : i.logicalOp = op := by rw [Instruction.logicalOp, opc, LogicalOp.ofField_field]
  have execute : i.execute m = i.shift?.bind fun s =>
      some (m.writeResult (i.logicalOp = .ands) (.orZero i.rd)
        (i.logicalOp.apply (m.readAt i.width (.orZero i.rn))
          (if i.bit 21 then ~~~s.1.apply (m.readAt i.width (.orZero i.rm)) s.2
          else s.1.apply (m.readAt i.width (.orZero i.rm)) s.2))) := rfl
  rw [execute, view, Option.bind_some, operation, inverted, field, field', field'',
    width_instruction rfl, m.writeResult_congr _ (Register.code_orZero hrd hd),
    m.readAt_congr _ (Register.code_orZero hrn hn), m.readAt_congr _ (Register.code_orZero hrm hm)]
  rfl

/-- The instruction of a move of an immediate does what the form does. -/
theorem execute_moveWide {op : MoveWideOp} {imm16 hw : Nat}
    (h : (moveWide op rd imm16 hw).check = .ok ())
    (hbuilt : ∀ r ∈ (moveWide op rd imm16 hw).registers, r.IsBuilt) :
    (moveWide op rd imm16 hw).instruction.execute m = (moveWide op rd imm16 hw).execute m := by
  obtain ⟨field, -, opc, view⟩ := reads_decoded h hbuilt .a64 0
  simp only [registers, List.forall_mem_cons] at hbuilt
  obtain ⟨hrd, -⟩ := hbuilt
  simp only [check, bind_eq_ok_iff, require_eq_ok_iff, Bool.not_eq_true'] at h
  set i := (moveWide op rd imm16 hw).instruction
  have execute : i.execute m = (MoveWideOp.ofField? (i.bits 29 2)).bind fun op =>
      i.moveWide?.bind fun v =>
        some (m.writeAt (.orZero i.rd) (op.apply (m.readAt i.width (.orZero i.rd)) v.1 v.2)) := rfl
  rw [execute, opc, MoveWideOp.ofField?_field, Option.bind_some, view, Option.bind_some, field,
    width_instruction rfl, m.writeAt_congr (Register.code_orZero hrd h.2.2),
    m.readAt_congr _ (Register.code_orZero hrd h.2.2)]
  rfl

/-- The instruction of a move of a bit field does what the form does. -/
theorem execute_bitfield {op : BitfieldOp} {immr imms : Nat}
    (h : (bitfield op rd rn immr imms).check = .ok ())
    (hbuilt : ∀ r ∈ (bitfield op rd rn immr imms).registers, r.IsBuilt) :
    (bitfield op rd rn immr imms).instruction.execute m =
      (bitfield op rd rn immr imms).execute m := by
  obtain ⟨field, field', -, opc, view⟩ := reads_decoded h hbuilt .a64 0
  simp only [registers, List.forall_mem_cons] at hbuilt
  obtain ⟨hrd, hrn, -⟩ := hbuilt
  simp only [check, bind_eq_ok_iff, require_eq_ok_iff, Bool.and_eq_true, Bool.not_eq_true'] at h
  obtain ⟨-, ⟨hd, hn⟩, -⟩ := h
  set i := (bitfield op rd rn immr imms).instruction
  have execute : i.execute m = (BitfieldOp.ofField? (i.bits 29 2)).bind fun op =>
      i.bitfield?.bind fun v =>
        some (m.writeAt (.orZero i.rd) (op.apply (m.readAt i.width (.orZero i.rd))
          (m.readAt i.width (.orZero i.rn)) v.1 v.2)) := rfl
  rw [execute, opc, BitfieldOp.ofField?_field, Option.bind_some, view, Option.bind_some, field,
    field', width_instruction rfl, m.writeAt_congr (Register.code_orZero hrd hd),
    m.readAt_congr _ (Register.code_orZero hrd hd), m.readAt_congr _ (Register.code_orZero hrn hn)]
  rfl

/-- The instruction of an extract does what the form does. -/
theorem execute_extract {lsb : Nat} (h : (extract rd rn rm lsb).check = .ok ())
    (hbuilt : ∀ r ∈ (extract rd rn rm lsb).registers, r.IsBuilt) :
    (extract rd rn rm lsb).instruction.execute m = (extract rd rn rm lsb).execute m := by
  obtain ⟨field, field', field'', -, view⟩ := reads_decoded h hbuilt .a64 0
  simp only [registers, List.forall_mem_cons] at hbuilt
  obtain ⟨hrd, hrn, hrm, -⟩ := hbuilt
  simp only [check, bind_eq_ok_iff, require_eq_ok_iff, Bool.and_eq_true, Bool.not_eq_true'] at h
  obtain ⟨-, ⟨⟨hd, hn⟩, hm⟩, -⟩ := h
  set i := (extract rd rn rm lsb).instruction
  have execute : i.execute m = i.bitfield?.bind fun v =>
      some (m.writeAt (.orZero i.rd) ((m.readAt i.width (.orZero i.rn) ++
        m.readAt i.width (.orZero i.rm)).extractLsb' v.2 i.width)) := rfl
  rw [execute, view, Option.bind_some, field, field', field'', width_instruction rfl,
    m.writeAt_congr (Register.code_orZero hrd hd), m.readAt_congr _ (Register.code_orZero hrn hn),
    m.readAt_congr _ (Register.code_orZero hrm hm)]
  rfl

/-! ### Loads and stores -/

/-- Loads and stores of forms transfer integer registers. -/
theorem bit_vector_instruction {op : LoadStoreOp} (h : f.loadStore? = some (op, rt)) :
    f.instruction.bit 26 = false := by
  rw [bit_decoded]
  cases f <;> cases h <;>
    simp (disch := decide) only [word, getLsbD_append_high, getLsbD_append_low, Nat.reduceSub] <;>
    rfl

/-- The transfer register is not the stack pointer, and a word is loaded with its sign into 64
bits. -/
theorem isStack_of_checkTransfer {op : LoadStoreOp} (h : checkTransfer op rt = .ok ()) :
    rt.isStack = false ∧ (op = .ldrsw → rt.is64) := by
  obtain ⟨stack, rest⟩ := bind_eq_ok_iff.1 h
  refine ⟨by simpa using require_eq_ok_iff.1 stack, ?_⟩
  rintro rfl
  exact require_eq_ok_iff.1 rest

/-- A load or store transfers the register that the form names. -/
theorem transfer_instruction {op : LoadStoreOp} (h : f.loadStore? = some (op, rt))
    (hlow : f.low? = some rt) (hrt : rt.IsBuilt) (hcheck : checkTransfer op rt = .ok ())
    (address : BitVec 64) :
    f.instruction.transfer m address = some (m.transfer op rt address) := by
  obtain ⟨size, -, opc⟩ := loadStore_decoded .a64 0 h
  obtain ⟨stack, word⟩ := isStack_of_checkTransfer hcheck
  have code : (Register.orZero f.instruction.rt).code = rt.code := by
    rw [Instruction.rt, rd_decoded .a64 0 hlow hrt, Register.code_orZero hrt stack]
  rw [Instruction.transfer, size, Option.bind_eq_bind, Option.bind_some,
    bit_vector_instruction h, if_neg Bool.false_ne_true, opc, Machine.transfer]
  simp only [m.load_congr code, m.store_congr code]
  have signed : ∀ {n : Nat}, op.isSigned → rt.is64 →
      (op.extended rt : BitVec n → BitVec 64) = (·.signExtend 64) := by
    intro n signed wide
    funext v
    rw [LoadStoreOp.extended, if_pos signed, Register.width, if_pos wide, BitVec.setWidth_eq]
  have narrow : ∀ {n : Nat}, op.isSigned → rt.is64 = false →
      (op.extended rt : BitVec n → BitVec 64) = fun v => (v.signExtend 32).setWidth 64 := by
    intro n signed narrow
    funext v
    rw [LoadStoreOp.extended, if_pos signed, Register.width, narrow, if_neg Bool.false_ne_true]
  cases op with
  | ldrsw =>
    rw [signed rfl (word rfl)]
    rfl
  | ldrsb | ldrsh =>
    cases wide : rt.is64 with
    | true =>
      rw [signed rfl wide]
      simp only [LoadStoreOp.field, wide]
      rfl
    | false =>
      rw [narrow rfl wide]
      simp only [LoadStoreOp.field, wide]
      rfl
  | _ => rfl

/-- The instruction of an access at an unsigned offset does what the form does. -/
theorem execute_loadStoreUnsigned {op : LoadStoreOp} {imm12 : Nat}
    (h : (loadStoreUnsigned op rt base imm12).check = .ok ())
    (hbuilt : ∀ r ∈ (loadStoreUnsigned op rt base imm12).registers, r.IsBuilt) :
    (loadStoreUnsigned op rt base imm12).instruction.execute m =
      (loadStoreUnsigned op rt base imm12).execute m := by
  obtain ⟨-, field, -, -, -, view⟩ := reads_decoded h hbuilt .a64 0
  simp only [registers, List.forall_mem_cons] at hbuilt
  obtain ⟨hrt, hbase, -⟩ := hbuilt
  simp only [check, bind_eq_ok_iff, require_eq_ok_iff, Bool.not_eq_true'] at h
  set i := (loadStoreUnsigned op rt base imm12).instruction
  have offset : i.loadStoreOffset? = some ((imm12 * op.size rt : Nat) : Int) := view
  have execute : i.execute m = i.loadStoreOffset?.bind fun offset =>
      i.transfer m (m.read (.orStack i.rn) + BitVec.ofInt 64 offset) := rfl
  rw [execute, offset, Option.bind_some, field, transfer_instruction m rfl rfl hrt h.1,
    m.read_congr (Register.code_orStack hbase h.2.2), BitVec.ofInt_natCast]
  rfl

/-- The instruction of an access that updates its base, or at an unscaled offset, does what the form
does. -/
theorem execute_loadStoreIndexed {op : LoadStoreOp} {offset : Int} {mode : IndexMode}
    (h : (loadStoreIndexed op rt base offset mode).check = .ok ())
    (hbuilt : ∀ r ∈ (loadStoreIndexed op rt base offset mode).registers, r.IsBuilt) :
    (loadStoreIndexed op rt base offset mode).instruction.execute m =
      (loadStoreIndexed op rt base offset mode).execute m := by
  obtain ⟨-, field, -, -, -, view⟩ := reads_decoded h hbuilt .a64 0
  simp only [registers, List.forall_mem_cons] at hbuilt
  obtain ⟨hrt, hbase, -⟩ := hbuilt
  simp only [check, bind_eq_ok_iff, require_eq_ok_iff, Bool.not_eq_true'] at h
  set i := (loadStoreIndexed op rt base offset mode).instruction
  have code : (Register.orStack i.rn).code = base.code := by
    rw [field, Register.code_orStack hbase h.2.2.1]
  have transferred := transfer_instruction (f := loadStoreIndexed op rt base offset mode) m rfl rfl
    hrt h.1
  cases mode with
  | unscaled =>
    have execute : i.execute m = i.loadStoreOffset?.bind fun offset =>
        i.transfer m (m.read (.orStack i.rn) + BitVec.ofInt 64 offset) := rfl
    rw [execute, view, Option.bind_some, transferred, m.read_congr code]
    rfl
  | preIndex =>
    have execute : i.execute m = i.loadStoreOffset?.bind fun offset =>
        (i.transfer m (m.read (.orStack i.rn) + BitVec.ofInt 64 offset)).bind fun m' =>
          some (m'.write (.orStack i.rn) (m.read (.orStack i.rn) + BitVec.ofInt 64 offset)) := rfl
    rw [execute, view, Option.bind_some, transferred, Option.bind_some, m.read_congr code,
      Machine.write_congr _ code]
    rfl
  | postIndex =>
    have execute : i.execute m = i.loadStoreOffset?.bind fun offset =>
        (i.transfer m (m.read (.orStack i.rn))).bind fun m' =>
          some (m'.write (.orStack i.rn) (m.read (.orStack i.rn) + BitVec.ofInt 64 offset)) := rfl
    rw [execute, view, Option.bind_some, transferred, Option.bind_some, m.read_congr code,
      Machine.write_congr _ code]
    rfl

/-- The instruction of an access at a register offset does what the form does. -/
theorem execute_loadStoreRegister {op : LoadStoreOp} {extend : Extend} {scaled : Bool}
    (h : (loadStoreRegister op rt base index extend scaled).check = .ok ())
    (hbuilt : ∀ r ∈ (loadStoreRegister op rt base index extend scaled).registers, r.IsBuilt) :
    (loadStoreRegister op rt base index extend scaled).instruction.execute m =
      (loadStoreRegister op rt base index extend scaled).execute m := by
  obtain ⟨-, field, field', -, -, -, view⟩ := reads_decoded h hbuilt .a64 0
  simp only [registers, List.forall_mem_cons] at hbuilt
  obtain ⟨hrt, hbase, hindex, -⟩ := hbuilt
  simp only [check, bind_eq_ok_iff, require_eq_ok_iff, Bool.and_eq_true, Bool.not_eq_true'] at h
  obtain ⟨htransfer, -, hzero, hstack⟩ := h
  set i := (loadStoreRegister op rt base index extend scaled).instruction
  have execute : i.execute m = i.extend?.bind fun e => i.transfer m
      (m.read (.orStack i.rn) + e.1.apply 64 (m.read (.orZero i.rm)) <<< e.2) := rfl
  rw [execute, view, Option.bind_some, field, field', transfer_instruction m rfl rfl hrt htransfer,
    m.read_congr (Register.code_orStack hbase hzero),
    m.read_congr (Register.code_orZero hindex hstack)]
  rfl

/-- The word of a form that passes its checks, decoded, does what the form does. -/
theorem execute_instruction (h : f.check = .ok ()) (hbuilt : ∀ r ∈ f.registers, r.IsBuilt) :
    f.instruction.execute m = f.execute m := by
  cases f with
  | addSubImmediate => exact execute_addSubImmediate m h hbuilt
  | addSubShifted => exact execute_addSubShifted m h hbuilt
  | addSubExtended => exact execute_addSubExtended m h hbuilt
  | logicalImmediate => exact execute_logicalImmediate m h hbuilt
  | logicalShifted => exact execute_logicalShifted m h hbuilt
  | moveWide => exact execute_moveWide m h hbuilt
  | bitfield => exact execute_bitfield m h hbuilt
  | extract => exact execute_extract m h hbuilt
  | loadStoreUnsigned => exact execute_loadStoreUnsigned m h hbuilt
  | loadStoreIndexed => exact execute_loadStoreIndexed m h hbuilt
  | loadStoreRegister => exact execute_loadStoreRegister m h hbuilt
  | _ => rfl

/-- **What the word of a form does.** The word of a form that passes its checks does what the form
says. Words of forms that are not executed have no next state, and nor have the words of capability
forms, which the base instruction set does not allocate.

**Proof sketch.** The word is classified as the category of the form, and its views answer the
arguments of the form (`AArch64.Form.reads_decoded`). -/
theorem step_word (h : f.check = .ok ()) (hbuilt : ∀ r ∈ f.registers, r.IsBuilt) :
    m.step f.word = f.execute m := by
  by_cases hisa : f.IsIn .a64
  · rw [Machine.step, EncodingIndex.classify_eq_iff.2 (leads_word h hisa)]
    exact execute_instruction m h hbuilt
  · rw [Machine.step, EncodingIndex.classify_eq_iff.2 (leads_unallocated hisa)]
    cases f with
    | capabilityAddImmediate | capabilityAddExtended | capabilityBranch => rfl
    | _ => exact absurd trivial hisa

end Decoded

end Form

end AArch64
