import AArch64.Instruction
import AArch64.Proofs.Bitmasks
import AArch64.Proofs.Emission
import AArch64.Proofs.FormCategory

/-!
# The views of encoded words

The views of a decoded instruction answer the arguments of the form that its word encodes.

## Main definitions

* `AArch64.Form.decoded` — what a form is decoded as.
* `AArch64.Form.Reads` — the views of an instruction answer the arguments of a form.

## Main results

* `AArch64.Form.reads_decoded` — the views of the word of a form answer its arguments.
* `AArch64.Form.classify_and_reads_of_emitted` — decoding undoes encoding.
-/

set_option autoImplicit false

namespace AArch64

namespace Form

/-! ## The views of a word -/

/-- The registers of a form. -/
def registers : Form → List Register
  | .addSubImmediate _ rd rn _ _ | .logicalImmediate _ rd rn _ | .bitfield _ rd rn _ _ => [rd, rn]
  | .addSubShifted _ rd rn rm _ _ | .addSubExtended _ rd rn rm _ _
  | .logicalShifted _ _ rd rn rm _ _ | .extract rd rn rm _ => [rd, rn, rm]
  | .moveWide _ rd _ _ => [rd]
  | .loadStoreUnsigned _ rt base _ | .loadStoreIndexed _ rt base _ _ => [rt, base]
  | .loadStoreRegister _ rt base index _ _ => [rt, base, index]
  | .branchRegister _ rn => [rn]
  | .capabilityAddImmediate _ cd cn _ _ => [cd, cn]
  | .capabilityAddExtended cd cn rm _ _ => [cd, cn, rm]
  | .capabilityBranch cn _ _ => [cn]

/-- The views of an instruction answer the arguments of a form. What has no view of its own, such
as the operation among those that share a form, is in the bits that the form puts it in. -/
def Reads (f : Form) (i : Instruction) : Prop :=
  match f with
  | .addSubImmediate op rd rn imm12 shifted =>
    i.rd = rd.number ∧ i.rn = rn.number ∧ i.is64 = rd.is64 ∧ i.isSubtract = op.isSub ∧
      i.setsFlags = op.setsFlags ∧
      i.addSubImmediate? =
        some ((if op.isSub then -1 else 1 : Int) * (imm12 * if shifted then 4096 else 1))
  | .addSubShifted op rd rn rm shift amount =>
    i.rd = rd.number ∧ i.rn = rn.number ∧ i.rm = rm.number ∧ i.is64 = rd.is64 ∧
      i.isSubtract = op.isSub ∧ i.setsFlags = op.setsFlags ∧ i.shift? = some (shift, amount)
  | .addSubExtended op rd rn rm extend amount =>
    i.rd = rd.number ∧ i.rn = rn.number ∧ i.rm = rm.number ∧ i.is64 = rd.is64 ∧
      i.isSubtract = op.isSub ∧ i.setsFlags = op.setsFlags ∧ i.extend? = some (extend, amount)
  | .logicalImmediate op rd rn bitmask =>
    i.rd = rd.number ∧ i.rn = rn.number ∧ i.is64 = rd.is64 ∧ i.bits 29 2 = op.field ∧
      bitmask.decode rd.width = .ok i.logicalImmediate?
  | .logicalShifted op invert rd rn rm shift amount =>
    i.rd = rd.number ∧ i.rn = rn.number ∧ i.rm = rm.number ∧ i.is64 = rd.is64 ∧
      i.bits 29 2 = op.field ∧ i.bit 21 = invert ∧ i.shift? = some (shift, amount)
  | .moveWide op rd imm16 hw =>
    i.rd = rd.number ∧ i.is64 = rd.is64 ∧ i.bits 29 2 = op.field ∧
      i.moveWide? = some (imm16, 16 * hw)
  | .bitfield op rd rn immr imms =>
    i.rd = rd.number ∧ i.rn = rn.number ∧ i.is64 = rd.is64 ∧ i.bits 29 2 = op.field ∧
      i.bitfield? = some (immr, imms)
  | .extract rd rn rm lsb =>
    i.rd = rd.number ∧ i.rn = rn.number ∧ i.rm = rm.number ∧ i.is64 = rd.is64 ∧
      i.bitfield? = some (0, lsb)
  | .loadStoreUnsigned op rt base imm12 =>
    i.rt = rt.number ∧ i.rn = base.number ∧ i.accessSizeLog2? = some (op.sizeLog2 rt) ∧
      i.isLoad = op.isLoad ∧ i.bits 22 2 = op.field rt ∧
      i.loadStoreOffset? = some (imm12 * 2 ^ op.sizeLog2 rt)
  | .loadStoreIndexed op rt base offset _ =>
    i.rt = rt.number ∧ i.rn = base.number ∧ i.accessSizeLog2? = some (op.sizeLog2 rt) ∧
      i.isLoad = op.isLoad ∧ i.bits 22 2 = op.field rt ∧ i.loadStoreOffset? = some offset
  | .loadStoreRegister op rt base index extend scaled =>
    i.rt = rt.number ∧ i.rn = base.number ∧ i.rm = index.number ∧
      i.accessSizeLog2? = some (op.sizeLog2 rt) ∧ i.isLoad = op.isLoad ∧
      i.bits 22 2 = op.field rt ∧ i.extend? = some (extend, if scaled then op.sizeLog2 rt else 0)
  | .branchRegister op rn =>
    i.rn = rn.number ∧ i.isLink = decide (op = .blr) ∧ i.bits 21 4 = op.field
  | .capabilityAddImmediate subtract cd cn imm12 shifted =>
    i.rd = cd.number ∧ i.rn = cn.number ∧ i.bit 23 = subtract ∧ i.bit 22 = shifted ∧
      (i.bits 10 12).toNat = imm12
  | .capabilityAddExtended cd cn rm extend amount =>
    i.rd = cd.number ∧ i.rn = cn.number ∧ i.rm = rm.number ∧
      Extend.ofField (i.bits 13 3) = extend ∧ (i.bits 10 3).toNat = amount
  | .capabilityBranch cn offset link =>
    i.rn = cn.number ∧ i.branchOffset? = some offset ∧ i.isLink = link

/-! ### Fields that forms share -/

/-- The register in the lowest field. -/
def low? : Form → Option Register
  | .addSubImmediate _ rd _ _ _ | .addSubShifted _ rd _ _ _ _ | .addSubExtended _ rd _ _ _ _
  | .logicalImmediate _ rd _ _ | .logicalShifted _ _ rd _ _ _ _ | .moveWide _ rd _ _
  | .bitfield _ rd _ _ _ | .extract rd _ _ _ => some rd
  | .loadStoreUnsigned _ rt _ _ | .loadStoreIndexed _ rt _ _ _ | .loadStoreRegister _ rt _ _ _ _ =>
    some rt
  | .capabilityAddImmediate _ cd _ _ _ | .capabilityAddExtended cd _ _ _ _ => some cd
  | .branchRegister .. | .capabilityBranch .. => none

/-- The register in the field above the lowest. -/
def middle? : Form → Option Register
  | .addSubImmediate _ _ rn _ _ | .addSubShifted _ _ rn _ _ _ | .addSubExtended _ _ rn _ _ _
  | .logicalImmediate _ _ rn _ | .logicalShifted _ _ _ rn _ _ _ | .bitfield _ _ rn _ _
  | .extract _ rn _ _ | .branchRegister _ rn => some rn
  | .loadStoreUnsigned _ _ base _ | .loadStoreIndexed _ _ base _ _
  | .loadStoreRegister _ _ base _ _ _ => some base
  | .capabilityAddImmediate _ _ cn _ _ | .capabilityAddExtended _ cn _ _ _
  | .capabilityBranch cn _ _ => some cn
  | .moveWide .. => none

/-- The register in the highest field for one. -/
def high? : Form → Option Register
  | .addSubShifted _ _ _ rm _ _ | .addSubExtended _ _ _ rm _ _ | .logicalShifted _ _ _ _ rm _ _
  | .extract _ _ rm _ | .capabilityAddExtended _ _ rm _ _ => some rm
  | .loadStoreRegister _ _ _ index _ _ => some index
  | _ => none

/-- The register that says how wide a data processing operation is. -/
def wide? : Form → Option Register
  | .addSubImmediate _ rd _ _ _ | .addSubShifted _ rd _ _ _ _ | .addSubExtended _ rd _ _ _ _
  | .logicalImmediate _ rd _ _ | .logicalShifted _ _ rd _ _ _ _ | .moveWide _ rd _ _
  | .bitfield _ rd _ _ _ | .extract rd _ _ _ => some rd
  | _ => none

/-- The operation of an addition or subtraction of integers. -/
def addSub? : Form → Option AddSubOp
  | .addSubImmediate op _ _ _ _ | .addSubShifted op _ _ _ _ _ | .addSubExtended op _ _ _ _ _ =>
    some op
  | _ => none

/-- The operation and the transfer register of a load or store. -/
def loadStore? : Form → Option (LoadStoreOp × Register)
  | .loadStoreUnsigned op rt _ _ | .loadStoreIndexed op rt _ _ _
  | .loadStoreRegister op rt _ _ _ _ => some (op, rt)
  | _ => none

/-- What a form is decoded as at a position. -/
def decoded (f : Form) (isa : Isa) (position : Nat) : Instruction where
  word := f.word
  category := f.category isa
  isa := isa
  offset := position

section Fields

variable {f : Form} {r : Register} (isa : Isa) (position : Nat)

/-- The bits of a decoded form are those of its word. -/
theorem bits_decoded (f : Form) (lo n : Nat) :
    (f.decoded isa position).bits lo n = f.word.extractLsb' lo n := rfl

/-- Each bit of a decoded form is the one of its word. -/
theorem bit_decoded (f : Form) (n : Nat) :
    (f.decoded isa position).bit n = f.word.getLsbD n := rfl

/-- The lowest register field has the number of the register in the lowest place. -/
theorem rd_decoded (h : f.low? = some r) (hr : r.IsBuilt) :
    (f.decoded isa position).rd = r.number := by
  have field : f.word.extractLsb' 0 5 = r.field := by
    cases f <;> cases h <;>
      simp (disch := decide) only [word, BitVec.extractLsb'_append_eq_of_add_le,
        BitVec.extractLsb'_eq_self]
  rw [Instruction.rd, bits_decoded, field, hr.toNat_field]

/-- The middle register field has the number of the register in the middle place. -/
theorem rn_decoded (h : f.middle? = some r) (hr : r.IsBuilt) :
    (f.decoded isa position).rn = r.number := by
  have field : f.word.extractLsb' 5 5 = r.field := by
    cases f <;> cases h <;>
      simp (disch := decide) only [word, BitVec.extractLsb'_append_eq_of_add_le,
        BitVec.extractLsb'_append_eq_of_le, Nat.reduceSub, BitVec.extractLsb'_eq_self]
  rw [Instruction.rn, bits_decoded, field, hr.toNat_field]

/-- The highest register field has the number of the register in the highest place. -/
theorem rm_decoded (h : f.high? = some r) (hr : r.IsBuilt) :
    (f.decoded isa position).rm = r.number := by
  have field : f.word.extractLsb' 16 5 = r.field := by
    cases f <;> cases h <;>
      simp (disch := decide) only [word, BitVec.extractLsb'_append_eq_of_add_le,
        BitVec.extractLsb'_append_eq_of_le, Nat.reduceSub, BitVec.extractLsb'_eq_self]
  rw [Instruction.rm, bits_decoded, field, hr.toNat_field]

/-- A decoded form has 64 bits if the register that its width is from does. -/
theorem is64_decoded (h : f.wide? = some r) :
    (f.decoded isa position).is64 = r.is64 := by
  rw [Instruction.is64, bit_decoded]
  cases f <;> cases h <;>
    simp (disch := decide) only [word, getLsbD_append_high, Nat.reduceSub, Register.getLsbD_sf]

/-- Subtraction and the setting of flags are read off the bits of the operation. -/
theorem addSub_decoded {op : AddSubOp} (h : f.addSub? = some op) :
    (f.decoded isa position).isSubtract = op.isSub ∧
      (f.decoded isa position).setsFlags = op.setsFlags := by
  have category : (f.decoded isa position).isAddSub = true := by
    cases f <;> cases h <;> rfl
  have field : f.word.getLsbD 30 = op.field.getLsbD 1 ∧ f.word.getLsbD 29 = op.field.getLsbD 0 := by
    cases f <;> cases h <;>
      simp (disch := decide) only [word, getLsbD_append_high, getLsbD_append_low, Nat.reduceSub,
        and_self]
  have bits : op.field.getLsbD 1 = op.isSub ∧ op.field.getLsbD 0 = op.setsFlags := by
    cases op <;> exact ⟨rfl, rfl⟩
  rw [Instruction.isSubtract, Instruction.setsFlags, category, bit_decoded, bit_decoded,
    Bool.true_and, Bool.true_and, field.1, field.2]
  exact bits

/-- The size of an access, and whether it is a load, are read off the bits of the operation. -/
theorem loadStore_decoded {op : LoadStoreOp} {rt : Register} (h : f.loadStore? = some (op, rt)) :
    (f.decoded isa position).accessSizeLog2? = some (op.sizeLog2 rt) ∧
      (f.decoded isa position).isLoad = op.isLoad ∧
      (f.decoded isa position).bits 22 2 = op.field rt := by
  have category : (f.decoded isa position).isLoadStore = true := by
    cases f with
    | loadStoreIndexed _ _ _ _ mode => cases mode <;> rfl
    | loadStoreUnsigned => rfl
    | loadStoreRegister => rfl
    | _ => cases h
  have fields : f.word.extractLsb' 30 2 = BitVec.ofNat 2 (op.sizeLog2 rt) ∧
      f.word.extractLsb' 22 2 = op.field rt := by
    cases f <;> cases h <;>
      simp (disch := decide) only [word, BitVec.extractLsb'_append_eq_of_add_le,
        BitVec.extractLsb'_append_eq_of_le, Nat.reduceSub, BitVec.extractLsb'_eq_self, and_self]
  have load : decide (op.field rt ≠ 0) = op.isLoad := by
    cases op with
    | ldrsb => simp only [LoadStoreOp.field]; split <;> rfl
    | ldrsh => simp only [LoadStoreOp.field]; split <;> rfl
    | _ => rfl
  refine ⟨?_, ?_, fields.2⟩
  · rw [Instruction.accessSizeLog2?, if_pos category, bits_decoded, fields.1,
      BitVec.toNat_ofNat, Nat.mod_eq_of_lt (op.sizeLog2_lt rt)]
  · rw [Instruction.isLoad, category, bits_decoded, fields.2, Bool.true_and, load]

end Fields

/-! ### Form by form -/

section Views

variable {isa : Isa} {position : Nat}

/-- The bit of a truth value. -/
theorem getLsbD_ofBool_zero (b : Bool) : (BitVec.ofBool b).getLsbD 0 = b := by
  cases b <;> rfl

/-- A decoded addition of an immediate is read as it was written. -/
theorem reads_addSubImmediate {op : AddSubOp} {rd rn : Register} {imm12 : Nat} {shifted : Bool}
    (h : (addSubImmediate op rd rn imm12 shifted).check = .ok ()) (hrd : rd.IsBuilt)
    (hrn : rn.IsBuilt) :
    (addSubImmediate op rd rn imm12 shifted).Reads
      ((addSubImmediate op rd rn imm12 shifted).decoded isa position) := by
  simp only [check, bind_eq_ok_iff, require_eq_ok_iff, decide_eq_true_eq] at h
  obtain ⟨sub, flags⟩ := addSub_decoded isa position
    (f := addSubImmediate op rd rn imm12 shifted) rfl
  refine ⟨rd_decoded isa position rfl hrd, rn_decoded isa position rfl hrn,
    is64_decoded isa position rfl, sub, flags, ?_⟩
  have imm : (addSubImmediate op rd rn imm12 shifted).word.extractLsb' 10 12 =
      BitVec.ofNat 12 imm12 := by
    simp (disch := decide) only [word, BitVec.extractLsb'_append_eq_of_add_le,
      BitVec.extractLsb'_append_eq_of_le, Nat.reduceSub, BitVec.extractLsb'_eq_self]
  have shift : (addSubImmediate op rd rn imm12 shifted).word.getLsbD 22 = shifted := by
    simp (disch := decide) only [word, getLsbD_append_high, getLsbD_append_low, Nat.reduceSub,
      getLsbD_ofBool_zero]
  have category : ((addSubImmediate op rd rn imm12 shifted).decoded isa position).category =
      .addSubImmediate := rfl
  rw [Instruction.addSubImmediate?, if_pos category, sub, bits_decoded, imm, bit_decoded, shift,
    BitVec.toNat_ofNat, Nat.mod_eq_of_lt h.1]
  cases op.isSub <;> cases shifted <;> simp

/-- A shift amount fits its field. -/
theorem toNat_amount {r : Register} {amount : Nat} (h : amount < r.width) :
    (BitVec.ofNat 6 amount).toNat = amount := by
  rw [Register.width] at h
  have lt : amount < 2 ^ 6 := by split at h <;> omega
  rw [BitVec.toNat_ofNat, Nat.mod_eq_of_lt lt]

/-- A decoded addition of a shifted register is read as it was written. -/
theorem reads_addSubShifted {op : AddSubOp} {rd rn rm : Register} {shift : Shift} {amount : Nat}
    (h : (addSubShifted op rd rn rm shift amount).check = .ok ()) (hrd : rd.IsBuilt)
    (hrn : rn.IsBuilt) (hrm : rm.IsBuilt) :
    (addSubShifted op rd rn rm shift amount).Reads
      ((addSubShifted op rd rn rm shift amount).decoded isa position) := by
  simp only [check, bind_eq_ok_iff, require_eq_ok_iff, decide_eq_true_eq] at h
  obtain ⟨-, hamount, -⟩ := h
  obtain ⟨sub, flags⟩ := addSub_decoded isa position
    (f := addSubShifted op rd rn rm shift amount) rfl
  refine ⟨rd_decoded isa position rfl hrd, rn_decoded isa position rfl hrn,
    rm_decoded isa position rfl hrm, is64_decoded isa position rfl, sub, flags, ?_⟩
  have fields : (addSubShifted op rd rn rm shift amount).word.extractLsb' 22 2 = shift.field ∧
      (addSubShifted op rd rn rm shift amount).word.extractLsb' 10 6 = BitVec.ofNat 6 amount := by
    simp (disch := decide) only [word, BitVec.extractLsb'_append_eq_of_add_le,
      BitVec.extractLsb'_append_eq_of_le, Nat.reduceSub, BitVec.extractLsb'_eq_self, and_self]
  show some (Shift.ofField (((addSubShifted op rd rn rm shift amount).decoded isa position).bits
    22 2), (((addSubShifted op rd rn rm shift amount).decoded isa position).bits 10 6).toNat) = _
  rw [bits_decoded, bits_decoded, fields.1, fields.2, Shift.ofField_field, toNat_amount hamount]

/-- A decoded addition of an extended register is read as it was written. -/
theorem reads_addSubExtended {op : AddSubOp} {rd rn rm : Register} {extend : Extend} {amount : Nat}
    (h : (addSubExtended op rd rn rm extend amount).check = .ok ()) (hrd : rd.IsBuilt)
    (hrn : rn.IsBuilt) (hrm : rm.IsBuilt) :
    (addSubExtended op rd rn rm extend amount).Reads
      ((addSubExtended op rd rn rm extend amount).decoded isa position) := by
  simp only [check, bind_eq_ok_iff, require_eq_ok_iff, decide_eq_true_eq] at h
  obtain ⟨hamount, -⟩ := h
  obtain ⟨sub, flags⟩ := addSub_decoded isa position
    (f := addSubExtended op rd rn rm extend amount) rfl
  refine ⟨rd_decoded isa position rfl hrd, rn_decoded isa position rfl hrn,
    rm_decoded isa position rfl hrm, is64_decoded isa position rfl, sub, flags, ?_⟩
  have fields : (addSubExtended op rd rn rm extend amount).word.extractLsb' 13 3 = extend.field ∧
      (addSubExtended op rd rn rm extend amount).word.extractLsb' 10 3 = BitVec.ofNat 3 amount := by
    simp (disch := decide) only [word, BitVec.extractLsb'_append_eq_of_add_le,
      BitVec.extractLsb'_append_eq_of_le, Nat.reduceSub, BitVec.extractLsb'_eq_self, and_self]
  show some (Extend.ofField (((addSubExtended op rd rn rm extend amount).decoded isa
    position).bits 13 3),
      (((addSubExtended op rd rn rm extend amount).decoded isa position).bits 10 3).toNat) = _
  rw [bits_decoded, bits_decoded, fields.1, fields.2, Extend.ofField_field, BitVec.toNat_ofNat,
    Nat.mod_eq_of_lt (by omega)]

/-- A decoded combination with an immediate is read as it was written. -/
theorem reads_logicalImmediate {op : LogicalOp} {rd rn : Register} {bitmask : Bitmask}
    (h : (logicalImmediate op rd rn bitmask).check = .ok ()) (hrd : rd.IsBuilt)
    (hrn : rn.IsBuilt) :
    (logicalImmediate op rd rn bitmask).Reads
      ((logicalImmediate op rd rn bitmask).decoded isa position) := by
  simp only [check, bind_eq_ok_iff, require_eq_ok_iff, decide_eq_true_eq] at h
  obtain ⟨⟨hn, hr, hs⟩, -⟩ := h
  have wide : ((logicalImmediate op rd rn bitmask).decoded isa position).is64 = rd.is64 :=
    is64_decoded isa position rfl
  have fields : (logicalImmediate op rd rn bitmask).word.extractLsb' 29 2 = op.field ∧
      (logicalImmediate op rd rn bitmask).word.extractLsb' 22 1 = BitVec.ofNat 1 bitmask.n ∧
      (logicalImmediate op rd rn bitmask).word.extractLsb' 16 6 = BitVec.ofNat 6 bitmask.immr ∧
      (logicalImmediate op rd rn bitmask).word.extractLsb' 10 6 = BitVec.ofNat 6 bitmask.imms := by
    simp (disch := decide) only [word, BitVec.extractLsb'_append_eq_of_add_le,
      BitVec.extractLsb'_append_eq_of_le, Nat.reduceSub, BitVec.extractLsb'_eq_self, and_self]
  obtain ⟨opc, n, immr, imms⟩ := fields
  refine ⟨rd_decoded isa position rfl hrd, rn_decoded isa position rfl hrn, wide, opc, ?_⟩
  have read : ((logicalImmediate op rd rn bitmask).decoded isa position).bitmask = bitmask := by
    rw [Instruction.bitmask, bits_decoded, bits_decoded, bits_decoded, n, immr, imms,
      BitVec.toNat_ofNat, BitVec.toNat_ofNat, BitVec.toNat_ofNat, Nat.mod_eq_of_lt (by omega),
      Nat.mod_eq_of_lt (by omega), Nat.mod_eq_of_lt (by omega)]
  have width : ((logicalImmediate op rd rn bitmask).decoded isa position).width = rd.width := by
    rw [Instruction.width, wide, Register.width]
  have category : ((logicalImmediate op rd rn bitmask).decoded isa position).category =
      .logicalImmediate := rfl
  obtain ⟨k, hk, size⟩ := rd.exists_width_eq
  rw [Instruction.logicalImmediate?, if_pos category, read, width, size,
    Bitmask.decode_eq bitmask hk]

/-- A decoded combination with a shifted register is read as it was written. -/
theorem reads_logicalShifted {op : LogicalOp} {invert : Bool} {rd rn rm : Register} {shift : Shift}
    {amount : Nat} (h : (logicalShifted op invert rd rn rm shift amount).check = .ok ())
    (hrd : rd.IsBuilt) (hrn : rn.IsBuilt) (hrm : rm.IsBuilt) :
    (logicalShifted op invert rd rn rm shift amount).Reads
      ((logicalShifted op invert rd rn rm shift amount).decoded isa position) := by
  simp only [check, bind_eq_ok_iff, require_eq_ok_iff, decide_eq_true_eq] at h
  obtain ⟨hamount, -⟩ := h
  have fields : (logicalShifted op invert rd rn rm shift amount).word.extractLsb' 29 2 =
        op.field ∧
      (logicalShifted op invert rd rn rm shift amount).word.extractLsb' 22 2 = shift.field ∧
      (logicalShifted op invert rd rn rm shift amount).word.extractLsb' 10 6 =
        BitVec.ofNat 6 amount := by
    simp (disch := decide) only [word, BitVec.extractLsb'_append_eq_of_add_le,
      BitVec.extractLsb'_append_eq_of_le, Nat.reduceSub, BitVec.extractLsb'_eq_self, and_self]
  have inverted : (logicalShifted op invert rd rn rm shift amount).word.getLsbD 21 = invert := by
    simp (disch := decide) only [word, getLsbD_append_high, getLsbD_append_low, Nat.reduceSub,
      getLsbD_ofBool_zero]
  obtain ⟨opc, kind, imm⟩ := fields
  refine ⟨rd_decoded isa position rfl hrd, rn_decoded isa position rfl hrn,
    rm_decoded isa position rfl hrm, is64_decoded isa position rfl, opc, inverted, ?_⟩
  show some (Shift.ofField (((logicalShifted op invert rd rn rm shift amount).decoded isa
    position).bits 22 2),
      (((logicalShifted op invert rd rn rm shift amount).decoded isa position).bits 10 6).toNat) = _
  rw [bits_decoded, bits_decoded, kind, imm, Shift.ofField_field, toNat_amount hamount]

/-- A decoded move of an immediate is read as it was written. -/
theorem reads_moveWide {op : MoveWideOp} {rd : Register} {imm16 hw : Nat}
    (h : (moveWide op rd imm16 hw).check = .ok ()) (hrd : rd.IsBuilt) :
    (moveWide op rd imm16 hw).Reads ((moveWide op rd imm16 hw).decoded isa position) := by
  simp only [check, bind_eq_ok_iff, require_eq_ok_iff, decide_eq_true_eq] at h
  obtain ⟨himm, hhw, -⟩ := h
  have small : hw < 2 ^ 2 := by
    rw [Register.width] at hhw
    split at hhw <;> omega
  have fields : (moveWide op rd imm16 hw).word.extractLsb' 29 2 = op.field ∧
      (moveWide op rd imm16 hw).word.extractLsb' 5 16 = BitVec.ofNat 16 imm16 ∧
      (moveWide op rd imm16 hw).word.extractLsb' 21 2 = BitVec.ofNat 2 hw := by
    simp (disch := decide) only [word, BitVec.extractLsb'_append_eq_of_add_le,
      BitVec.extractLsb'_append_eq_of_le, Nat.reduceSub, BitVec.extractLsb'_eq_self, and_self]
  obtain ⟨opc, imm, halfword⟩ := fields
  have category : ((moveWide op rd imm16 hw).decoded isa position).category = .moveWide := rfl
  refine ⟨rd_decoded isa position rfl hrd, is64_decoded isa position rfl, opc, ?_⟩
  rw [Instruction.moveWide?, if_pos category, bits_decoded, bits_decoded, imm, halfword,
    BitVec.toNat_ofNat, BitVec.toNat_ofNat, Nat.mod_eq_of_lt himm, Nat.mod_eq_of_lt small,
    Nat.mul_comm]

/-- A decoded move of a bit field is read as it was written. -/
theorem reads_bitfield {op : BitfieldOp} {rd rn : Register} {immr imms : Nat}
    (h : (bitfield op rd rn immr imms).check = .ok ()) (hrd : rd.IsBuilt) (hrn : rn.IsBuilt) :
    (bitfield op rd rn immr imms).Reads ((bitfield op rd rn immr imms).decoded isa position) := by
  simp only [check, bind_eq_ok_iff, require_eq_ok_iff, decide_eq_true_eq] at h
  obtain ⟨⟨hr, hs⟩, -⟩ := h
  have fields : (bitfield op rd rn immr imms).word.extractLsb' 29 2 = op.field ∧
      (bitfield op rd rn immr imms).word.extractLsb' 16 6 = BitVec.ofNat 6 immr ∧
      (bitfield op rd rn immr imms).word.extractLsb' 10 6 = BitVec.ofNat 6 imms := by
    simp (disch := decide) only [word, BitVec.extractLsb'_append_eq_of_add_le,
      BitVec.extractLsb'_append_eq_of_le, Nat.reduceSub, BitVec.extractLsb'_eq_self, and_self]
  obtain ⟨opc, immr, imms⟩ := fields
  refine ⟨rd_decoded isa position rfl hrd, rn_decoded isa position rfl hrn,
    is64_decoded isa position rfl, opc, ?_⟩
  show some ((((bitfield op rd rn _ _).decoded isa position).bits 16 6).toNat,
    (((bitfield op rd rn _ _).decoded isa position).bits 10 6).toNat) = _
  rw [bits_decoded, bits_decoded, immr, imms, toNat_amount hr, toNat_amount hs]

/-- A decoded extract is read as it was written. -/
theorem reads_extract {rd rn rm : Register} {lsb : Nat}
    (h : (extract rd rn rm lsb).check = .ok ()) (hrd : rd.IsBuilt) (hrn : rn.IsBuilt)
    (hrm : rm.IsBuilt) :
    (extract rd rn rm lsb).Reads ((extract rd rn rm lsb).decoded isa position) := by
  simp only [check, bind_eq_ok_iff, require_eq_ok_iff, decide_eq_true_eq] at h
  obtain ⟨hlsb, -⟩ := h
  have imms : (extract rd rn rm lsb).word.extractLsb' 10 6 = BitVec.ofNat 6 lsb := by
    simp (disch := decide) only [word, BitVec.extractLsb'_append_eq_of_add_le,
      BitVec.extractLsb'_append_eq_of_le, Nat.reduceSub, BitVec.extractLsb'_eq_self]
  refine ⟨rd_decoded isa position rfl hrd, rn_decoded isa position rfl hrn,
    rm_decoded isa position rfl hrm, is64_decoded isa position rfl, ?_⟩
  show some (0, (((extract rd rn rm lsb).decoded isa position).bits 10 6).toNat) = _
  rw [bits_decoded, imms, toNat_amount hlsb]

/-- A decoded access at an unsigned offset is read as it was written. -/
theorem reads_loadStoreUnsigned {op : LoadStoreOp} {rt base : Register} {imm12 : Nat}
    (h : (loadStoreUnsigned op rt base imm12).check = .ok ()) (hrt : rt.IsBuilt)
    (hbase : base.IsBuilt) :
    (loadStoreUnsigned op rt base imm12).Reads
      ((loadStoreUnsigned op rt base imm12).decoded isa position) := by
  simp only [check, bind_eq_ok_iff, require_eq_ok_iff, decide_eq_true_eq] at h
  obtain ⟨-, himm, -⟩ := h
  obtain ⟨size, load, opc⟩ := loadStore_decoded isa position
    (f := loadStoreUnsigned op rt base imm12) rfl
  refine ⟨rd_decoded isa position rfl hrt, rn_decoded isa position rfl hbase, size, load, opc, ?_⟩
  have fields : (loadStoreUnsigned op rt base imm12).word.extractLsb' 10 12 =
        BitVec.ofNat 12 imm12 ∧
      (loadStoreUnsigned op rt base imm12).word.extractLsb' 30 2 =
        BitVec.ofNat 2 (op.sizeLog2 rt) := by
    simp (disch := decide) only [word, BitVec.extractLsb'_append_eq_of_add_le,
      BitVec.extractLsb'_append_eq_of_le, Nat.reduceSub, BitVec.extractLsb'_eq_self, and_self]
  show some ((_ * 2 ^ _ : Nat) : Int) = _
  rw [bits_decoded, bits_decoded, fields.1, fields.2, BitVec.toNat_ofNat, BitVec.toNat_ofNat,
    Nat.mod_eq_of_lt himm, Nat.mod_eq_of_lt (op.sizeLog2_lt rt)]
  push_cast
  rfl

/-- An offset that fits nine signed bits is read back from them. -/
theorem toInt_unscaledOffset {offset : Int} (h : Immediate.isUnscaledOffset offset) :
    (BitVec.ofInt 9 offset).toInt = offset := by
  rw [Immediate.isUnscaledOffset, decide_eq_true_eq] at h
  rw [BitVec.toInt_ofInt]
  exact Int.bmod_eq_of_le (by omega) (by omega)

/-- A decoded access that updates its base, or at an unscaled offset, is read as it was written. -/
theorem reads_loadStoreIndexed {op : LoadStoreOp} {rt base : Register} {offset : Int}
    {mode : IndexMode} (h : (loadStoreIndexed op rt base offset mode).check = .ok ())
    (hrt : rt.IsBuilt) (hbase : base.IsBuilt) :
    (loadStoreIndexed op rt base offset mode).Reads
      ((loadStoreIndexed op rt base offset mode).decoded isa position) := by
  simp only [check, bind_eq_ok_iff, require_eq_ok_iff] at h
  obtain ⟨-, hoffset, -⟩ := h
  obtain ⟨size, load, opc⟩ := loadStore_decoded isa position
    (f := loadStoreIndexed op rt base offset mode) rfl
  refine ⟨rd_decoded isa position rfl hrt, rn_decoded isa position rfl hbase, size, load, opc, ?_⟩
  have imm : (loadStoreIndexed op rt base offset mode).word.extractLsb' 12 9 =
      BitVec.ofInt 9 offset := by
    simp (disch := decide) only [word, BitVec.extractLsb'_append_eq_of_add_le,
      BitVec.extractLsb'_append_eq_of_le, Nat.reduceSub, BitVec.extractLsb'_eq_self]
  have view : ((loadStoreIndexed op rt base offset mode).decoded isa position).loadStoreOffset? =
      some (((loadStoreIndexed op rt base offset mode).decoded isa position).bits 12 9).toInt := by
    cases mode <;> rfl
  rw [view, bits_decoded, imm, toInt_unscaledOffset hoffset]

/-- A decoded access at a register offset is read as it was written. -/
theorem reads_loadStoreRegister {op : LoadStoreOp} {rt base index : Register} {extend : Extend}
    {scaled : Bool} (hrt : rt.IsBuilt) (hbase : base.IsBuilt) (hindex : index.IsBuilt) :
    (loadStoreRegister op rt base index extend scaled).Reads
      ((loadStoreRegister op rt base index extend scaled).decoded isa position) := by
  obtain ⟨size, load, opc⟩ := loadStore_decoded isa position
    (f := loadStoreRegister op rt base index extend scaled) rfl
  refine ⟨rd_decoded isa position rfl hrt, rn_decoded isa position rfl hbase,
    rm_decoded isa position rfl hindex, size, load, opc, ?_⟩
  have fields : (loadStoreRegister op rt base index extend scaled).word.extractLsb' 13 3 =
        extend.field ∧
      (loadStoreRegister op rt base index extend scaled).word.extractLsb' 30 2 =
        BitVec.ofNat 2 (op.sizeLog2 rt) := by
    simp (disch := decide) only [word, BitVec.extractLsb'_append_eq_of_add_le,
      BitVec.extractLsb'_append_eq_of_le, Nat.reduceSub, BitVec.extractLsb'_eq_self, and_self]
  have amount : (loadStoreRegister op rt base index extend scaled).word.getLsbD 12 = scaled := by
    simp (disch := decide) only [word, getLsbD_append_high, getLsbD_append_low, Nat.reduceSub,
      getLsbD_ofBool_zero]
  show some (Extend.ofField (((loadStoreRegister op rt base index extend scaled).decoded isa
    position).bits 13 3),
      if ((loadStoreRegister op rt base index extend scaled).decoded isa position).bit 12
      then (((loadStoreRegister op rt base index extend scaled).decoded isa
        position).bits 30 2).toNat else 0) = _
  rw [bits_decoded, bits_decoded, bit_decoded, fields.1, fields.2, amount, Extend.ofField_field,
    BitVec.toNat_ofNat, Nat.mod_eq_of_lt (op.sizeLog2_lt rt)]

/-- A decoded branch to a register is read as it was written. -/
theorem reads_branchRegister {op : BranchOp} {rn : Register} (hrn : rn.IsBuilt) :
    (branchRegister op rn).Reads ((branchRegister op rn).decoded isa position) := by
  have opc : (branchRegister op rn).word.extractLsb' 21 4 = op.field := by
    simp (disch := decide) only [word, BitVec.extractLsb'_append_eq_of_add_le,
      BitVec.extractLsb'_append_eq_of_le, Nat.reduceSub, BitVec.extractLsb'_eq_self]
  have view : ((branchRegister op rn).decoded isa position).isLink =
      decide (((branchRegister op rn).decoded isa position).bits 21 4 = 1) := by
    cases isa <;> rfl
  refine ⟨rn_decoded isa position rfl hrn, ?_, opc⟩
  rw [view, bits_decoded, opc]
  cases op <;> rfl

/-- A decoded addition of an immediate to a capability is read as it was written. -/
theorem reads_capabilityAddImmediate {subtract : Bool} {cd cn : Register} {imm12 : Nat}
    {shifted : Bool} (h : (capabilityAddImmediate subtract cd cn imm12 shifted).check = .ok ())
    (hcd : cd.IsBuilt) (hcn : cn.IsBuilt) :
    (capabilityAddImmediate subtract cd cn imm12 shifted).Reads
      ((capabilityAddImmediate subtract cd cn imm12 shifted).decoded isa position) := by
  simp only [check, bind_eq_ok_iff, require_eq_ok_iff, decide_eq_true_eq] at h
  obtain ⟨-, himm, -⟩ := h
  have imm : (capabilityAddImmediate subtract cd cn imm12 shifted).word.extractLsb' 10 12 =
      BitVec.ofNat 12 imm12 := by
    simp (disch := decide) only [word, BitVec.extractLsb'_append_eq_of_add_le,
      BitVec.extractLsb'_append_eq_of_le, Nat.reduceSub, BitVec.extractLsb'_eq_self]
  refine ⟨rd_decoded isa position rfl hcd, rn_decoded isa position rfl hcn, ?_, ?_, ?_⟩
  · rw [bit_decoded]
    simp (disch := decide) only [word, getLsbD_append_high, getLsbD_append_low, Nat.reduceSub,
      getLsbD_ofBool_zero]
  · rw [bit_decoded]
    simp (disch := decide) only [word, getLsbD_append_high, getLsbD_append_low, Nat.reduceSub,
      getLsbD_ofBool_zero]
  · rw [bits_decoded, imm, BitVec.toNat_ofNat, Nat.mod_eq_of_lt himm]

/-- A decoded addition of a register to a capability is read as it was written. -/
theorem reads_capabilityAddExtended {cd cn rm : Register} {extend : Extend} {amount : Nat}
    (h : (capabilityAddExtended cd cn rm extend amount).check = .ok ()) (hcd : cd.IsBuilt)
    (hcn : cn.IsBuilt) (hrm : rm.IsBuilt) :
    (capabilityAddExtended cd cn rm extend amount).Reads
      ((capabilityAddExtended cd cn rm extend amount).decoded isa position) := by
  simp only [check, bind_eq_ok_iff, require_eq_ok_iff, decide_eq_true_eq] at h
  obtain ⟨-, -, hamount, -⟩ := h
  have fields : (capabilityAddExtended cd cn rm extend amount).word.extractLsb' 13 3 =
        extend.field ∧
      (capabilityAddExtended cd cn rm extend amount).word.extractLsb' 10 3 =
        BitVec.ofNat 3 amount := by
    simp (disch := decide) only [word, BitVec.extractLsb'_append_eq_of_add_le,
      BitVec.extractLsb'_append_eq_of_le, Nat.reduceSub, BitVec.extractLsb'_eq_self, and_self]
  refine ⟨rd_decoded isa position rfl hcd, rn_decoded isa position rfl hcn,
    rm_decoded isa position rfl hrm, ?_, ?_⟩
  · rw [bits_decoded, fields.1, Extend.ofField_field]
  · rw [bits_decoded, fields.2, BitVec.toNat_ofNat, Nat.mod_eq_of_lt (by omega)]

/-- A multiple of 16 whose quotient fits seven signed bits is read back from them. -/
theorem toInt_capabilityOffset {offset : Int} (h : Immediate.isCapabilityOffset offset) :
    (BitVec.ofInt 7 (offset / 16)).toInt * 16 = offset := by
  rw [Immediate.isCapabilityOffset, decide_eq_true_eq] at h
  rw [BitVec.toInt_ofInt, Int.bmod_eq_of_le (by omega) (by omega)]
  omega

/-- A decoded branch through memory is read as it was written. -/
theorem reads_capabilityBranch {cn : Register} {offset : Int} {link : Bool}
    (h : (capabilityBranch cn offset link).check = .ok ()) (hcn : cn.IsBuilt) :
    (capabilityBranch cn offset link).Reads
      ((capabilityBranch cn offset link).decoded isa position) := by
  simp only [check, bind_eq_ok_iff, require_eq_ok_iff] at h
  have imm : (capabilityBranch cn offset link).word.extractLsb' 15 7 =
      BitVec.ofInt 7 (offset / 16) := by
    simp (disch := decide) only [word, BitVec.extractLsb'_append_eq_of_add_le,
      BitVec.extractLsb'_append_eq_of_le, Nat.reduceSub, BitVec.extractLsb'_eq_self]
  refine ⟨rn_decoded isa position rfl hcn, ?_, ?_⟩
  · show some ((((capabilityBranch cn offset link).decoded isa position).bits 15 7).toInt * 16) =
      some offset
    rw [bits_decoded, imm, toInt_capabilityOffset h.2]
  · show ((capabilityBranch cn offset link).decoded isa position).bit 0 = link
    rw [bit_decoded]
    simp (disch := decide) only [word, getLsbD_append_low, getLsbD_ofBool_zero]

end Views

/-- The views of the word of a form that passes the checks answer the arguments of the form. -/
theorem reads_decoded {f : Form} (h : f.check = .ok ()) (hbuilt : ∀ r ∈ f.registers, r.IsBuilt)
    (isa : Isa) (position : Nat) : f.Reads (f.decoded isa position) := by
  cases f <;> simp only [registers, List.forall_mem_cons] at hbuilt
  case addSubImmediate => exact reads_addSubImmediate h hbuilt.1 hbuilt.2.1
  case addSubShifted => exact reads_addSubShifted h hbuilt.1 hbuilt.2.1 hbuilt.2.2.1
  case addSubExtended => exact reads_addSubExtended h hbuilt.1 hbuilt.2.1 hbuilt.2.2.1
  case logicalImmediate => exact reads_logicalImmediate h hbuilt.1 hbuilt.2.1
  case logicalShifted => exact reads_logicalShifted h hbuilt.1 hbuilt.2.1 hbuilt.2.2.1
  case moveWide => exact reads_moveWide h hbuilt.1
  case bitfield => exact reads_bitfield h hbuilt.1 hbuilt.2.1
  case extract => exact reads_extract h hbuilt.1 hbuilt.2.1 hbuilt.2.2.1
  case loadStoreUnsigned => exact reads_loadStoreUnsigned h hbuilt.1 hbuilt.2.1
  case loadStoreIndexed => exact reads_loadStoreIndexed h hbuilt.1 hbuilt.2.1
  case loadStoreRegister => exact reads_loadStoreRegister hbuilt.1 hbuilt.2.1 hbuilt.2.2.1
  case branchRegister => exact reads_branchRegister hbuilt.1
  case capabilityAddImmediate => exact reads_capabilityAddImmediate h hbuilt.1 hbuilt.2.1
  case capabilityAddExtended =>
    exact reads_capabilityAddExtended h hbuilt.1 hbuilt.2.1 hbuilt.2.2.1
  case capabilityBranch => exact reads_capabilityBranch h hbuilt.1

end Form

/-! ## Emission and decoding -/

/-- A form that is emitted passes its checks and appends its word. -/
theorem Emit.words_of_apply_form {f : Form} {s s' : Emitter}
    (h : (Emit.form f).apply s = (.ok (), s')) :
    f.check = .ok () ∧ s'.code.words = s.code.words.push f.word := by
  rw [Emit.apply_form] at h
  cases hcheck : f.check with
  | ok u =>
    rw [hcheck] at h
    obtain rfl := (Prod.mk.inj h).2
    exact ⟨rfl, by simp [Emit.emitted]⟩
  | error y =>
    rw [hcheck] at h
    cases h

/-- **Decoding undoes encoding.** A form with registers as they are meant to be built that is
emitted appends one word. In either instruction set that has the form, the graph of the encoding
index classifies the word as the category of the form, and the views of the decoded instruction
answer the arguments of the form. -/
theorem Form.classify_and_reads_of_emitted {f : Form} {s s' : Emitter} {isa : Isa}
    (h : (Emit.form f).apply s = (.ok (), s')) (hbuilt : ∀ r ∈ f.registers, r.IsBuilt)
    (hisa : f.IsIn isa) (position : Nat) :
    ∃ w, s'.code.words = s.code.words.push w ∧
      EncodingIndex.graph.classify w isa = f.category isa ∧
      f.Reads { word := w, category := EncodingIndex.graph.classify w isa, isa
                offset := position } := by
  obtain ⟨hcheck, hwords⟩ := Emit.words_of_apply_form h
  have category : EncodingIndex.graph.classify f.word isa = f.category isa :=
    EncodingIndex.classify_eq_iff.2 (leads_word hcheck hisa)
  refine ⟨f.word, hwords, category, ?_⟩
  rw [category]
  exact reads_decoded hcheck hbuilt isa position

/-- A signed load that changes the stack pointer. -/
def Form.signedLoad : Form :=
  .loadStoreIndexed .ldrsw ⟨3, .x⟩ (.stack .x) (-16) .preIndex

/-- The signed load, decoded in the capability state. -/
theorem Form.classify_and_reads_of_emitted_signedLoad :
    ∃ w, ((Emit.form signedLoad).apply (.new .a64)).2.code.words =
        (Emitter.new .a64).code.words.push w ∧
      EncodingIndex.graph.classify w .c64 = .loadStorePreIndex ∧
      signedLoad.Reads { word := w, category := EncodingIndex.graph.classify w .c64, isa := .c64
                         offset := 8 } := by
  have emitted : (Emit.form signedLoad).apply (.new .a64) =
      (.ok (), ((Emit.form signedLoad).apply (.new .a64)).2) := rfl
  have built : ∀ r ∈ signedLoad.registers, r.IsBuilt := by
    intro r hr
    rcases List.mem_pair.1 hr with rfl | rfl
    · exact .inl ⟨3, rfl⟩
    · exact .inr (.inr rfl)
  have inC64 : signedLoad.IsIn .c64 := trivial
  exact Form.classify_and_reads_of_emitted emitted built inC64 8

end AArch64
