import AArch64.Proofs.Fields
import AArch64.Proofs.FormViews
import AArch64.Proofs.Regions

/-!
# Encoding what was decoded

The fields of a word of a data processing class are the arguments of a form: the operation, the
registers in the view of the width, with field 31 as the stack pointer or the zero register as the
form has it, and the immediates. The form has the class as its category and the word as its word.
The checks of the form accept it, with one exception: the tables do not look at the top bit of the
positions of a bitfield move or an extract of 32 bits, and the checks do.

## Main definitions

* `AArch64.Instruction.form?` — the form of a data processing instruction.
* `AArch64.Instruction.hasWidePosition` — a position is not one of the register.
* `AArch64.Instruction.Reencodes` — a form stands for an instruction.

## Main results

* `AArch64.Instruction.exists_reencodes` — the form has the class and the word, and its checks hold
  unless a position is not one of the register.
* `AArch64.Instruction.apply_form_of_classify` — encoding undoes decoding.
-/

set_option autoImplicit false

namespace AArch64

/-! ## The form of an instruction -/

namespace Instruction

/-- The view of the registers of a data processing operation. -/
def view (i : Instruction) : RegisterView :=
  if i.is64 then .x else .w

/-- The register of the field at bit `lo`. -/
def register (i : Instruction) (lo : Nat) (stack : Bool) : Register :=
  .ofField (i.bits lo 5) i.view stack

/-- The form of an instruction of a data processing class, with the arguments that its fields
hold. -/
def form? (i : Instruction) : Option Form :=
  match i.category with
  | .addSubImmediate =>
    let op := AddSubOp.ofField (i.bits 29 2)
    some (.addSubImmediate op (i.register 0 !op.setsFlags) (i.register 5 true) (i.bits 10 12).toNat
      (i.bit 22))
  | .addSubShifted =>
    some (.addSubShifted (.ofField (i.bits 29 2)) (i.register 0 false) (i.register 5 false)
      (i.register 16 false) (.ofField (i.bits 22 2)) (i.bits 10 6).toNat)
  | .addSubExtended =>
    let op := AddSubOp.ofField (i.bits 29 2)
    some (.addSubExtended op (i.register 0 !op.setsFlags) (i.register 5 true) (i.register 16 false)
      (.ofField (i.bits 13 3)) (i.bits 10 3).toNat)
  | .logicalImmediate =>
    let op := LogicalOp.ofField (i.bits 29 2)
    some (.logicalImmediate op (i.register 0 (op ≠ .ands)) (i.register 5 false) i.bitmask)
  | .logicalShifted =>
    some (.logicalShifted (.ofField (i.bits 29 2)) (i.bit 21) (i.register 0 false)
      (i.register 5 false) (i.register 16 false) (.ofField (i.bits 22 2)) (i.bits 10 6).toNat)
  | .moveWide =>
    (MoveWideOp.ofField? (i.bits 29 2)).map fun op =>
      .moveWide op (i.register 0 false) (i.bits 5 16).toNat (i.bits 21 2).toNat
  | .bitfield =>
    (BitfieldOp.ofField? (i.bits 29 2)).map fun op =>
      .bitfield op (i.register 0 false) (i.register 5 false) (i.bits 16 6).toNat
        (i.bits 10 6).toNat
  | .extract =>
    some (.extract (i.register 0 false) (i.register 5 false) (i.register 16 false)
      (i.bits 10 6).toNat)
  | _ => none

/-- Whether a position of a bitfield move or an extract is not one of the register. -/
def hasWidePosition (i : Instruction) : Bool :=
  match i.category with
  | .bitfield => i.width ≤ (i.bits 16 6).toNat ∨ i.width ≤ (i.bits 10 6).toNat
  | .extract => i.width ≤ (i.bits 10 6).toNat
  | _ => false

variable (i : Instruction)

/-! ## Fields put together -/

/-- The registers that are read from an instruction have its width. -/
@[simp] theorem is64_register (lo : Nat) (stack : Bool) : (i.register lo stack).is64 = i.is64 := by
  rw [register, Register.is64_ofField, view]
  cases i.is64 <;> rfl

/-- The number of their bits is that of the instruction. -/
@[simp] theorem width_register (lo : Nat) (stack : Bool) :
    (i.register lo stack).width = i.width := by
  rw [Register.width, is64_register, width]

/-- The field of a register is the one that it was read from. -/
@[simp] theorem field_register (lo : Nat) (stack : Bool) :
    (i.register lo stack).field = i.bits lo 5 :=
  Register.field_ofField _ _ _

/-- It is not the stack pointer where 31 is the zero register. -/
@[simp] theorem isStack_register_false (lo : Nat) : (i.register lo false).isStack = false :=
  Register.isStack_ofField _ _ _

/-- It is not the zero register where 31 is the stack pointer. -/
@[simp] theorem isZero_register_true (lo : Nat) : (i.register lo true).isZero = false :=
  Register.isZero_ofField _ _ _

/-- One bit, as a field. -/
theorem ofBool_bit (n : Nat) : BitVec.ofBool (i.bit n) = i.bits n 1 := by
  apply BitVec.eq_of_getLsbD_eq
  intro k hk
  obtain rfl : k = 0 := by omega
  simp [bit, bits]

/-- A field of one bit that is known. -/
theorem bits_of_bit {n : Nat} {b : Bool} (h : i.bit n = b) : i.bits n 1 = BitVec.ofBool b := by
  rw [← ofBool_bit, h]

/-- The size bit of a register is that of the instruction. -/
@[simp] theorem sf_register (lo : Nat) (stack : Bool) :
    (i.register lo stack).sf = i.bits 31 1 := by
  rw [Register.sf, is64_register, is64, ofBool_bit]

/-- Adjacent fields are one field. -/
theorem bits_append {lo mid n m : Nat} (h : mid = lo + m) :
    i.bits mid n ++ i.bits lo m = i.bits lo (n + m) :=
  BitVec.extractLsb'_append_extractLsb'_eq_extractLsb' h

/-- All bits are the word. -/
theorem bits_all : i.bits 0 32 = i.word :=
  BitVec.extractLsb'_eq_self

/-- The registers that are read from an instruction can be built. -/
theorem isBuilt_register (lo : Nat) (stack : Bool) : (i.register lo stack).IsBuilt :=
  Register.isBuilt_ofField _ _ _

/-! ## Checks on fields -/

/-- Two of them have the same width. -/
@[simp] theorem checkWidths_register (lo lo' : Nat) (stack stack' : Bool) :
    Form.checkWidths (i.register lo stack) (i.register lo' stack') = .ok () := by
  rw [Form.checkWidths, is64_register, is64_register, require_eq_ok_iff]
  exact decide_eq_true rfl

/-- Field 31 of a destination is the register that the destination may be. -/
@[simp] theorem checkDestination_register (flags : Bool) (ifStack ifZero : Rejection) :
    Form.checkDestination flags (i.register 0 !flags) ifStack ifZero = .ok () := by
  cases flags with
  | true => simp [Form.checkDestination, require_eq_ok_iff]
  | false => simp [Form.checkDestination, require_eq_ok_iff]

variable {i}

/-- A field whose top bit is clear has half the range. -/
theorem toNat_bits_lt {lo n : Nat} (h : i.bit (lo + n) = false) :
    (i.bits lo (n + 1)).toNat < 2 ^ n := by
  apply Nat.lt_pow_two_of_testBit
  intro k hk
  show (i.bits lo (n + 1)).getLsbD k = false
  rw [bits, BitVec.getLsbD_extractLsb']
  rcases Nat.lt_or_ge k (n + 1) with hlt | hge
  · obtain rfl : k = n := by omega
    rw [show i.word.getLsbD (lo + k) = false from h, Bool.and_false]
  · rw [decide_eq_false (by omega), Bool.false_and]

/-- A shift amount is less than the width if its top bit is clear for 32 bits. -/
theorem amount_lt_width (h : (i.is64 || !i.bit 15) = true) : (i.bits 10 6).toNat < i.width := by
  rw [width]
  cases hsize : i.is64 with
  | true => exact BitVec.isLt _
  | false =>
    rw [hsize, Bool.false_or, Bool.not_eq_true'] at h
    exact toNat_bits_lt h

/-- A halfword is one of the register if the top bit of its position is clear for 32 bits. -/
theorem halfword_lt_width (h : (i.is64 || !i.bit 22) = true) :
    (i.bits 21 2).toNat < i.width / 16 := by
  rw [width]
  cases hsize : i.is64 with
  | true => exact BitVec.isLt _
  | false =>
    rw [hsize, Bool.false_or, Bool.not_eq_true'] at h
    exact toNat_bits_lt h

/-- The bit `n` is set at 64 bits only. -/
theorem is64_or_n_eq_zero (h : (i.is64 || !i.bit 22) = true) :
    i.is64 = true ∨ (i.bits 22 1).toNat = 0 := by
  cases hsize : i.is64 with
  | true => exact .inl rfl
  | false =>
    rw [hsize, Bool.false_or, Bool.not_eq_true'] at h
    exact .inr (Nat.lt_one_iff.1 (toNat_bits_lt h))

/-- A shift that is not reserved is no rotation. -/
theorem shift_ne_ror (h : (!i.bit 23 || !i.bit 22) = true) :
    Shift.ofField (i.bits 22 2) ≠ .ror := by
  have fields : ∀ v : BitVec 2, (!v.getLsbD 1 || !v.getLsbD 0) = true → Shift.ofField v ≠ .ror := by
    decide
  apply fields
  simpa [bits, bit] using h

/-! ## Class by class -/

/-- A form stands for an instruction: it has the class and the word, its registers are registers as
they are built, and its checks fail only if a position is not one of the register. -/
structure Reencodes (i : Instruction) (f : Form) : Prop where
  form : i.form? = some f
  category : f.category .a64 = i.category
  isBuilt : ∀ r ∈ f.registers, r.IsBuilt
  word : f.word = i.word
  accepts : i.hasWidePosition = false → f.check = .ok ()
  rejects : i.hasWidePosition = true → ∃ r, f.check = .error (.rejected r)

section Classes

open EncodingIndex (rootName tables)

/-- The word of an addition of an immediate is the word of a form. -/
theorem reencodes_addSubImmediate (hc : i.category = .addSubImmediate)
    (h : Tables.Leads tables i.word rootName .addSubImmediate) : ∃ f, i.Reencodes f := by
  have opcode : i.bits 23 6 = 0b100010#6 := EncodingIndex.fields_of_addSubImmediate h
  refine ⟨_, by rw [form?, hc], by rw [hc]; rfl, ?_, ?_, fun _ => ?_, by simp [hasWidePosition, hc]⟩
  · simp [Form.registers, isBuilt_register]
  · simp only [Form.word, sf_register, AddSubOp.field_ofField, field_register, BitVec.ofNat_toNat,
      BitVec.setWidth_eq, ofBool_bit, ← opcode]
    simp (disch := decide) only [bits_append]
    exact i.bits_all
  · have imm : (i.bits 10 12).toNat < 4096 := BitVec.isLt _
    simp [Form.check, bind_eq_ok_iff, require_eq_ok_iff, imm]

/-- The word of an addition of a shifted register is the word of a form. -/
theorem reencodes_addSubShifted (hc : i.category = .addSubShifted)
    (h : Tables.Leads tables i.word rootName .addSubShifted) : ∃ f, i.Reencodes f := by
  obtain ⟨opcode, zero, kind, amount⟩ := EncodingIndex.fields_of_addSubShifted h
  have opcode : i.bits 24 5 = 0b01011#5 := opcode
  have zero : i.bits 21 1 = 0#1 := i.bits_of_bit zero
  refine ⟨_, by rw [form?, hc], by rw [hc]; rfl, ?_, ?_, fun _ => ?_, by simp [hasWidePosition, hc]⟩
  · simp [Form.registers, isBuilt_register]
  · simp only [Form.word, sf_register, AddSubOp.field_ofField, Shift.field_ofField, field_register,
      BitVec.ofNat_toNat, BitVec.setWidth_eq, ← opcode, ← zero]
    simp (disch := decide) only [bits_append]
    exact i.bits_all
  · simp [Form.check, bind_eq_ok_iff, require_eq_ok_iff, shift_ne_ror kind, amount_lt_width amount]

/-- The word of an addition of an extended register is the word of a form. -/
theorem reencodes_addSubExtended (hc : i.category = .addSubExtended)
    (h : Tables.Leads tables i.word rootName .addSubExtended) : ∃ f, i.Reencodes f := by
  obtain ⟨opcode, kind, amount⟩ := EncodingIndex.fields_of_addSubExtended h
  have opcode : i.bits 24 5 = 0b01011#5 := opcode
  have kind : i.bits 21 3 = 0b001#3 := kind
  have amount : (i.bits 10 3).toNat ≤ 4 := amount
  refine ⟨_, by rw [form?, hc], by rw [hc]; rfl, ?_, ?_, fun _ => ?_, by simp [hasWidePosition, hc]⟩
  · simp [Form.registers, isBuilt_register]
  · simp only [Form.word, sf_register, AddSubOp.field_ofField, Extend.field_ofField, field_register,
      BitVec.ofNat_toNat, BitVec.setWidth_eq, ← opcode, ← kind]
    simp (disch := decide) only [bits_append]
    exact i.bits_all
  · simp [Form.check, bind_eq_ok_iff, require_eq_ok_iff, amount]

/-- The word of a combination with an immediate is the word of a form. -/
theorem reencodes_logicalImmediate (hc : i.category = .logicalImmediate)
    (h : Tables.Leads tables i.word rootName .logicalImmediate) : ∃ f, i.Reencodes f := by
  obtain ⟨opcode, element⟩ := EncodingIndex.fields_of_logicalImmediate h
  have opcode : i.bits 23 6 = 0b100100#6 := opcode
  refine ⟨_, by rw [form?, hc], by rw [hc]; rfl, ?_, ?_, fun _ => ?_, by simp [hasWidePosition, hc]⟩
  · simp [Form.registers, isBuilt_register]
  · simp only [Form.word, bitmask, sf_register, LogicalOp.field_ofField, field_register,
      BitVec.ofNat_toNat, BitVec.setWidth_eq, ← opcode]
    simp (disch := decide) only [bits_append]
    exact i.bits_all
  · have n : i.bitmask.n ≤ 1 := Nat.le_of_lt_succ (BitVec.isLt _)
    have immr : i.bitmask.immr < 64 := BitVec.isLt _
    have imms : i.bitmask.imms < 64 := BitVec.isLt _
    have size : i.is64 = true ∨ i.bitmask.n = 0 := is64_or_n_eq_zero element
    simp [Form.check, bind_eq_ok_iff, require_eq_ok_iff, n, immr, imms, size]

/-- The word of a combination with a shifted register is the word of a form. -/
theorem reencodes_logicalShifted (hc : i.category = .logicalShifted)
    (h : Tables.Leads tables i.word rootName .logicalShifted) : ∃ f, i.Reencodes f := by
  obtain ⟨opcode, amount⟩ := EncodingIndex.fields_of_logicalShifted h
  have opcode : i.bits 24 5 = 0b01010#5 := opcode
  refine ⟨_, by rw [form?, hc], by rw [hc]; rfl, ?_, ?_, fun _ => ?_, by simp [hasWidePosition, hc]⟩
  · simp [Form.registers, isBuilt_register]
  · simp only [Form.word, sf_register, LogicalOp.field_ofField, Shift.field_ofField,
      field_register, ofBool_bit, BitVec.ofNat_toNat, BitVec.setWidth_eq, ← opcode]
    simp (disch := decide) only [bits_append]
    exact i.bits_all
  · simp [Form.check, bind_eq_ok_iff, require_eq_ok_iff, amount_lt_width amount]

/-- The word of a move of an immediate is the word of a form. -/
theorem reencodes_moveWide (hc : i.category = .moveWide)
    (h : Tables.Leads tables i.word rootName .moveWide) : ∃ f, i.Reencodes f := by
  obtain ⟨opcode, hop, halfword⟩ := EncodingIndex.fields_of_moveWide h
  have opcode : i.bits 23 6 = 0b100101#6 := opcode
  obtain ⟨op, hop, field⟩ : ∃ op, MoveWideOp.ofField? (i.bits 29 2) = some op ∧
      op.field = i.bits 29 2 :=
    MoveWideOp.exists_ofField? (by simpa [bits] using hop)
  refine ⟨_, by rw [form?, hc, hop]; rfl, by rw [hc]; rfl, ?_, ?_, fun _ => ?_,
    by simp [hasWidePosition, hc]⟩
  · simp [Form.registers, isBuilt_register]
  · simp only [Form.word, sf_register, field, field_register, BitVec.ofNat_toNat,
      BitVec.setWidth_eq, ← opcode]
    simp (disch := decide) only [bits_append]
    exact i.bits_all
  · have imm : (i.bits 5 16).toNat < 65536 := BitVec.isLt _
    simp [Form.check, bind_eq_ok_iff, require_eq_ok_iff, imm, halfword_lt_width halfword]

/-- The word of a move of a bit field is the word of a form, which is rejected for a position above 31
in 32 bits. -/
theorem reencodes_bitfield (hc : i.category = .bitfield)
    (h : Tables.Leads tables i.word rootName .bitfield) : ∃ f, i.Reencodes f := by
  obtain ⟨opcode, hop, size⟩ := EncodingIndex.fields_of_bitfield h
  have opcode : i.bits 23 6 = 0b100110#6 := opcode
  have size : i.bits 22 1 = i.bits 31 1 := (i.bits_of_bit size).trans (i.ofBool_bit 31)
  obtain ⟨op, hop, field⟩ : ∃ op, BitfieldOp.ofField? (i.bits 29 2) = some op ∧
      op.field = i.bits 29 2 :=
    BitfieldOp.exists_ofField? (by simpa [bits] using hop)
  refine ⟨_, by rw [form?, hc, hop]; rfl, by rw [hc]; rfl, ?_, ?_, fun fits => ?_, fun wide => ?_⟩
  · simp [Form.registers, isBuilt_register]
  · have whole : i.bits 31 1 ++ i.bits 29 2 ++ i.bits 23 6 ++ i.bits 22 1 ++ i.bits 16 6 ++
        i.bits 10 6 ++ i.bits 5 5 ++ i.bits 0 5 = i.word := by
      simp (disch := decide) only [bits_append]
      exact i.bits_all
    rw [opcode, size] at whole
    simpa only [Form.word, sf_register, field, field_register, BitVec.ofNat_toNat,
      BitVec.setWidth_eq] using whole
  · have fits : (i.bits 16 6).toNat < i.width ∧ (i.bits 10 6).toNat < i.width := by
      simpa [hasWidePosition, hc] using fits
    simp [Form.check, bind_eq_ok_iff, require_eq_ok_iff, fits]
  · refine ⟨.bitfieldRange, ?_⟩
    have refused : decide ((i.bits 16 6).toNat < i.width ∧ (i.bits 10 6).toNat < i.width) =
        false := by
      simp only [hasWidePosition, hc, decide_eq_true_eq] at wide
      rw [decide_eq_false_iff_not]
      omega
    rw [Form.check, width_register, refused]
    rfl

/-- The word of an extract is the word of a form, which is rejected for a position above 31 in 32
bits. -/
theorem reencodes_extract (hc : i.category = .extract)
    (h : Tables.Leads tables i.word rootName .extract) : ∃ f, i.Reencodes f := by
  obtain ⟨opcode, op, size, zero⟩ := EncodingIndex.fields_of_extract h
  have opcode : i.bits 23 8 = 0b00100111#8 := by
    have fields : i.bits 29 2 ++ i.bits 23 6 = i.bits 23 8 := bits_append i rfl
    rw [← fields, show i.bits 29 2 = 0#2 from op, show i.bits 23 6 = 0b100111#6 from opcode]
    rfl
  have size : i.bits 22 1 = i.bits 31 1 := (i.bits_of_bit size).trans (i.ofBool_bit 31)
  have zero : i.bits 21 1 = 0#1 := i.bits_of_bit zero
  refine ⟨_, by rw [form?, hc], by rw [hc]; rfl, ?_, ?_, fun fits => ?_, fun wide => ?_⟩
  · simp [Form.registers, isBuilt_register]
  · have whole : i.bits 31 1 ++ i.bits 23 8 ++ i.bits 22 1 ++ i.bits 21 1 ++ i.bits 16 5 ++
        i.bits 10 6 ++ i.bits 5 5 ++ i.bits 0 5 = i.word := by
      simp (disch := decide) only [bits_append]
      exact i.bits_all
    rw [opcode, size, zero] at whole
    simpa only [Form.word, sf_register, field_register, BitVec.ofNat_toNat,
      BitVec.setWidth_eq] using whole
  · have fits : (i.bits 10 6).toNat < i.width := by
      simpa [hasWidePosition, hc] using fits
    simp [Form.check, bind_eq_ok_iff, require_eq_ok_iff, fits]
  · refine ⟨.extractRange (i.bits 10 6).toNat, ?_⟩
    have refused : decide ((i.bits 10 6).toNat < i.width) = false := by
      simp only [hasWidePosition, hc, decide_eq_true_eq] at wide
      rw [decide_eq_false_iff_not]
      omega
    rw [Form.check, width_register, refused]
    rfl

end Classes

/-! ## All classes -/

/-- The form of an instruction of a data processing class stands for it. -/
theorem exists_reencodes {i : Instruction}
    (hc : i.category ∈ EncodingIndex.immediateClasses ++ EncodingIndex.registerClasses)
    (h : Tables.Leads EncodingIndex.tables i.word EncodingIndex.rootName i.category) :
    ∃ f, i.Reencodes f := by
  have cases : i.category = .addSubImmediate ∨ i.category = .logicalImmediate ∨
      i.category = .moveWide ∨ i.category = .bitfield ∨ i.category = .extract ∨
      i.category = .logicalShifted ∨ i.category = .addSubShifted ∨
      i.category = .addSubExtended := by
    simpa [EncodingIndex.immediateClasses, EncodingIndex.registerClasses] using hc
  rcases cases with hi | hi | hi | hi | hi | hi | hi | hi
  · exact reencodes_addSubImmediate hi (hi ▸ h)
  · exact reencodes_logicalImmediate hi (hi ▸ h)
  · exact reencodes_moveWide hi (hi ▸ h)
  · exact reencodes_bitfield hi (hi ▸ h)
  · exact reencodes_extract hi (hi ▸ h)
  · exact reencodes_logicalShifted hi (hi ▸ h)
  · exact reencodes_addSubShifted hi (hi ▸ h)
  · exact reencodes_addSubExtended hi (hi ▸ h)

/-- **Encoding undoes decoding.** A word that is classified in A64 as data processing with an
immediate, or with a shifted or extended register, has a form of that class with registers as they
are meant to be built, read off its fields. Emitting the form appends the word, unless the word is
a bitfield move or an extract of 32 bits with a position above 31: the tables classify these
reserved words like the others, and the form is rejected.

**Proof sketch.** The way of the word through the tables fixes its opcode and rules out the reserved
values that the tables know (`AArch64.EncodingIndex.fields_of_bitfield` and its kin). With that the
fields of the form, put together, are the word, and the checks hold class by class
(`AArch64.Instruction.exists_reencodes`). -/
theorem apply_form_of_classify {w : Word} {c : Category} (position : Nat)
    (hc : c ∈ EncodingIndex.immediateClasses ++ EncodingIndex.registerClasses)
    (h : EncodingIndex.graph.classify w .a64 = c) :
    ∃ f, form? ⟨w, c, .a64, position⟩ = some f ∧ f.category .a64 = c ∧
      (∀ r ∈ f.registers, r.IsBuilt) ∧
      (hasWidePosition ⟨w, c, .a64, position⟩ = false → ∀ s : Emitter,
        (Emit.form f).apply s = (.ok (), { s with code := s.code.emit w })) ∧
      (hasWidePosition ⟨w, c, .a64, position⟩ = true → ∀ s : Emitter,
        ∃ r, (Emit.form f).apply s = (.error (.rejected r), s)) := by
  obtain ⟨f, reencodes⟩ := exists_reencodes (i := ⟨w, c, .a64, position⟩) hc
    (EncodingIndex.classify_eq_iff.1 h)
  refine ⟨f, reencodes.form, reencodes.category, reencodes.isBuilt, fun fits s => ?_,
    fun wide s => ?_⟩
  · have word : f.word = w := reencodes.word
    rw [Emit.apply_form, reencodes.accepts fits, ← word]
    simp [Emit.emitted, CodeBuffer.emit]
  · obtain ⟨r, hr⟩ := reencodes.rejects wide
    exact ⟨r, by rw [Emit.apply_form, hr]⟩

/-- A shift to the right of 32 bits, as a bitfield move. -/
theorem apply_form_of_classify_shiftRight :
    EncodingIndex.graph.classify 0x53077c41#32 .a64 = .bitfield ∧
      ∃ f, form? ⟨0x53077c41#32, .bitfield, .a64, 0⟩ = some f ∧ ∀ s : Emitter,
        (Emit.form f).apply s = (.ok (), { s with code := s.code.emit 0x53077c41#32 }) := by
  have category : EncodingIndex.graph.classify 0x53077c41#32 .a64 = .bitfield :=
    EncodingIndex.classify_eq_iff.2 (Form.leads_bitfield .ubfm ⟨1, .w⟩ ⟨2, .w⟩ 7 31)
  obtain ⟨f, hf, -, -, emits, -⟩ := apply_form_of_classify 0 (by decide) category
  exact ⟨category, f, hf, emits rfl⟩

/-- A word that is classified as a bitfield move of 32 bits from bit 32 has a form that is
rejected. -/
theorem apply_form_widePosition :
    EncodingIndex.graph.classify 0x53200000#32 .a64 = .bitfield ∧
      form? ⟨0x53200000#32, .bitfield, .a64, 0⟩ =
        some (.bitfield .ubfm ⟨0, .w⟩ ⟨0, .w⟩ 32 0) ∧
      (Emit.form (.bitfield .ubfm ⟨0, .w⟩ ⟨0, .w⟩ 32 0)).apply (.new .a64) =
        (.error (.rejected .bitfieldRange), .new .a64) := by
  have category : EncodingIndex.graph.classify 0x53200000#32 .a64 = .bitfield :=
    EncodingIndex.classify_eq_iff.2 (Form.leads_bitfield .ubfm ⟨0, .w⟩ ⟨0, .w⟩ 32 0)
  exact ⟨category, rfl, rfl⟩

end Instruction

end AArch64
