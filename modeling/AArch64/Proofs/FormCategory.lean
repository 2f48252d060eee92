import AArch64.Form.Encoding
import AArch64.Proofs.Classification

/-!
# The categories of forms

The tables lead the word of every form to the category of the form, in the instruction sets that
have the form. The bits that the tables look at on the way are fixed by the form, come from its
operation, or are kept out of reserved values by its checks.

## Main definitions

* `AArch64.Form.category`, `AArch64.Form.IsIn` — the category of a form in an instruction set that
  has it.

## Main results

* `AArch64.Form.leads_word` — the tables lead the word of a form to its category.
-/

set_option autoImplicit false

namespace AArch64

/-! ## Bits of concatenations -/

/-- The size bit of a register says whether it has 64 bits. -/
theorem Register.getLsbD_sf (r : Register) : r.sf.getLsbD 0 = r.is64 := by
  cases h : r.is64 <;> simp [sf, h]

/-- The bits above the low part are those of the high part. -/
theorem getLsbD_append_high {m n i : Nat} {a : BitVec m} {b : BitVec n} (h : n ≤ i) :
    (a ++ b).getLsbD i = a.getLsbD (i - n) := by
  rw [BitVec.getLsbD_append, if_neg (by omega)]

/-- The bits of the low part stay where they are. -/
theorem getLsbD_append_low {m n i : Nat} {a : BitVec m} {b : BitVec n} (h : i < n) :
    (a ++ b).getLsbD i = b.getLsbD i := by
  rw [BitVec.getLsbD_append, if_pos h]

/-! ## Checks that passed -/

/-- A check passes exactly if its condition holds. -/
theorem require_eq_ok_iff {b : Bool} {r : Rejection} :
    (require b r : Except Fault Unit) = .ok () ↔ b = true := by
  cases b <;> simp [require, pure, Except.pure, throw, throwThe, MonadExceptOf.throw]

/-- A computation that answers goes through an answer of its first step. -/
theorem exists_of_bind_eq_ok {α β : Type} {x : Except Fault α} {k : α → Except Fault β} {b : β}
    (h : (x >>= k) = .ok b) : ∃ a, x = .ok a ∧ k a = .ok b := by
  cases x with
  | ok a => exact ⟨a, rfl, h⟩
  | error y => cases h

/-- Arithmetic answers the same among steps that may fault. -/
theorem ofTrap_eq_ok_iff {α : Type} {x : Except Trap α} {a : α} :
    Fault.ofTrap x = .ok a ↔ x = .ok a := by
  cases x <;> simp [Fault.ofTrap, Except.mapError]

/-- A computation that answers after a check has passed the check. -/
theorem and_of_require_bind_eq_ok {α : Type} {holds : Bool} {r : Rejection}
    {k : Unit → Except Fault α} {a : α} (h : (require holds r >>= k) = .ok a) :
    holds = true ∧ k () = .ok a := by
  obtain ⟨⟨⟩, hcheck, h⟩ := exists_of_bind_eq_ok h
  exact ⟨require_eq_ok_iff.1 hcheck, h⟩

/-- Two checks pass if both pass. -/
theorem bind_eq_ok_iff {x : Except Fault Unit} {f : Unit → Except Fault Unit} :
    (x >>= f) = .ok () ↔ x = .ok () ∧ f () = .ok () := by
  cases x <;> simp [bind, Except.bind]

/-! ## Classification -/

/-- The category of a load or store with a 9-bit offset. -/
def IndexMode.category : IndexMode → Category
  | .unscaled => .loadStoreUnscaledOffset
  | .postIndex => .loadStorePostIndex
  | .preIndex => .loadStorePreIndex

namespace Form

/-- The category of a form. -/
def category (f : Form) (isa : Isa) : Category :=
  match f with
  | .addSubImmediate .. => .addSubImmediate
  | .addSubShifted .. => .addSubShifted
  | .addSubExtended .. => .addSubExtended
  | .logicalImmediate .. => .logicalImmediate
  | .logicalShifted .. => .logicalShifted
  | .moveWide .. => .moveWide
  | .bitfield .. => .bitfield
  | .extract .. => .extract
  | .loadStoreUnsigned .. => .loadStoreUnsignedOffset
  | .loadStoreIndexed _ _ _ _ mode => mode.category
  | .loadStoreRegister .. => .loadStoreRegisterOffset
  | .branchRegister .. =>
    if isa = .c64 then .capabilityBranchRegister else .unconditionalBranchRegister
  | .capabilityAddImmediate .. => .capabilityArithmetic
  | .capabilityAddExtended .. => .capabilityArithmetic
  | .capabilityBranch .. => .capabilityBranchMemory

/-- Whether an instruction set has a form: capability forms are those of the capability state. -/
def IsIn (f : Form) (isa : Isa) : Prop :=
  match f with
  | .capabilityAddImmediate .. | .capabilityAddExtended .. | .capabilityBranch .. => isa = .c64
  | _ => True

/-! ## The way of a word through the tables -/

open EncodingIndex

section Ways

variable {isa : Isa}

/-- The word of an addition of an immediate leads to its category. -/
theorem leads_addSubImmediate (op : AddSubOp) (rd rn : Register) (imm12 : Nat) (shifted : Bool) :
    Tables.Leads tables (addSubImmediate op rd rn imm12 shifted).word (name isa)
      .addSubImmediate := by
  have next : dataProcessingImmediate.pick? [false, true, false] = some "AddSubImmediate" := by
    decide
  refine leads_immediate rfl ?_ ?_ next (.category .addSubImmediate)
  · simp (disch := decide) only [List.map, word, getLsbD_append_high, getLsbD_append_low]
    rfl
  · simp (disch := decide) only [List.map, word, getLsbD_append_high, getLsbD_append_low]
    rfl

/-- The word of a combination with an immediate leads to its category. -/
theorem leads_logicalImmediate {op : LogicalOp} {rd rn : Register} {bitmask : Bitmask}
    (h : (logicalImmediate op rd rn bitmask).check = .ok ()) :
    Tables.Leads tables (logicalImmediate op rd rn bitmask).word (name isa) .logicalImmediate := by
  simp only [check, bind_eq_ok_iff, require_eq_ok_iff, decide_eq_true_eq, Bool.or_eq_true] at h
  obtain ⟨-, hwidth, -⟩ := h
  have next : dataProcessingImmediate.pick? [true, false, false] =
      some logicalImmediateClass.name := by
    decide
  have pick : ∀ s n, (s || !n) → logicalImmediateClass.pick? [s, n] = some "LogicalImmediate" := by
    decide
  have fits : (rd.is64 || !bitmask.n.testBit 0) = true := by
    rcases hwidth with hwidth | hwidth
    · rw [hwidth, Bool.true_or]
    · rw [hwidth, Nat.zero_testBit, Bool.not_false, Bool.or_true]
  refine leads_immediate rfl ?_ ?_ next
    (.pick (by simp [tables]) ?_ (pick _ _ fits) (.category .logicalImmediate))
  · simp (disch := decide) only [List.map, word, getLsbD_append_high, getLsbD_append_low]
    rfl
  · simp (disch := decide) only [List.map, word, getLsbD_append_high, getLsbD_append_low]
    rfl
  · simp (disch := decide) only [logicalImmediateClass, List.map, word, getLsbD_append_high,
      getLsbD_append_low, Nat.reduceSub, Register.getLsbD_sf, BitVec.getLsbD_ofNat]
    rfl

/-- The word of a move of an immediate leads to its category. -/
theorem leads_moveWide {op : MoveWideOp} {rd : Register} {imm16 hw : Nat}
    (h : (moveWide op rd imm16 hw).check = .ok ()) :
    Tables.Leads tables (moveWide op rd imm16 hw).word (name isa) .moveWide := by
  simp only [check, bind_eq_ok_iff, require_eq_ok_iff, decide_eq_true_eq] at h
  obtain ⟨-, hhw, -⟩ := h
  have next : dataProcessingImmediate.pick? [true, false, true] = some moveWideClass.name := by
    decide
  have pick : ∀ s o₁ o₀ h₁, (o₁ || !o₀) → (s || !h₁) →
      moveWideClass.pick? [s, o₁, o₀, h₁] = some "MoveWide" := by
    decide
  have opc : (op.field.getLsbD 1 || !op.field.getLsbD 0) = true := by
    cases op <;> rfl
  have fits : (rd.is64 || !hw.testBit 1) = true := by
    cases hrd : rd.is64 with
    | true => rfl
    | false =>
      rw [Register.width, hrd] at hhw
      have lt : hw < 2 ^ 1 := hhw
      rw [Nat.testBit_lt_two_pow lt]
      rfl
  refine leads_immediate rfl ?_ ?_ next
    (.pick (by simp [tables]) ?_ (pick _ _ _ _ opc fits) (.category .moveWide))
  · simp (disch := decide) only [List.map, word, getLsbD_append_high, getLsbD_append_low]
    rfl
  · simp (disch := decide) only [List.map, word, getLsbD_append_high, getLsbD_append_low]
    rfl
  · simp (disch := decide) only [moveWideClass, List.map, word, getLsbD_append_high,
      getLsbD_append_low, Nat.reduceSub, Register.getLsbD_sf, BitVec.getLsbD_ofNat]
    rfl

/-- The word of a move of a bit field leads to its category. -/
theorem leads_bitfield (op : BitfieldOp) (rd rn : Register) (immr imms : Nat) :
    Tables.Leads tables (bitfield op rd rn immr imms).word (name isa) .bitfield := by
  have next : dataProcessingImmediate.pick? [true, true, false] = some bitfieldClass.name := by
    decide
  have pick : ∀ s o₁ o₀, (!o₁ || !o₀) → bitfieldClass.pick? [s, o₁, o₀, s] = some "Bitfield" := by
    decide
  have opc : (!op.field.getLsbD 1 || !op.field.getLsbD 0) = true := by
    cases op <;> rfl
  refine leads_immediate rfl ?_ ?_ next
    (.pick (by simp [tables]) ?_ (pick rd.is64 _ _ opc) (.category .bitfield))
  · simp (disch := decide) only [List.map, word, getLsbD_append_high, getLsbD_append_low]
    rfl
  · simp (disch := decide) only [List.map, word, getLsbD_append_high, getLsbD_append_low]
    rfl
  · simp (disch := decide) only [bitfieldClass, List.map, word, getLsbD_append_high,
      getLsbD_append_low, Nat.reduceSub, Register.getLsbD_sf]

/-- The word of an extract leads to its category. -/
theorem leads_extract (rd rn rm : Register) (lsb : Nat) :
    Tables.Leads tables (extract rd rn rm lsb).word (name isa) .extract := by
  have next : dataProcessingImmediate.pick? [true, true, true] = some extractClass.name := by
    decide
  have pick : ∀ s, extractClass.pick? [s, false, false, s, false] = some "Extract" := by
    decide
  refine leads_immediate rfl ?_ ?_ next
    (.pick (by simp [tables]) ?_ (pick rd.is64) (.category .extract))
  · simp (disch := decide) only [List.map, word, getLsbD_append_high, getLsbD_append_low]
    rfl
  · simp (disch := decide) only [List.map, word, getLsbD_append_high, getLsbD_append_low]
    rfl
  · simp (disch := decide) only [extractClass, List.map, word, getLsbD_append_high,
      getLsbD_append_low, Nat.reduceSub, Register.getLsbD_sf]
    rfl

/-- The top bit of a shift amount is clear if the register has 32 bits. -/
theorem is64_or_not_testBit {rd : Register} {amount : Nat} (h : amount < rd.width) :
    (rd.is64 || !amount.testBit 5) = true := by
  cases hrd : rd.is64 with
  | true => rfl
  | false =>
    rw [Register.width, hrd] at h
    have lt : amount < 2 ^ 5 := h
    rw [Nat.testBit_lt_two_pow lt]
    rfl

/-- The word of an addition of a shifted register leads to its category. -/
theorem leads_addSubShifted {op : AddSubOp} {rd rn rm : Register} {shift : Shift} {amount : Nat}
    (h : (addSubShifted op rd rn rm shift amount).check = .ok ()) :
    Tables.Leads tables (addSubShifted op rd rn rm shift amount).word (name isa)
      .addSubShifted := by
  simp only [check, bind_eq_ok_iff, require_eq_ok_iff, decide_eq_true_eq] at h
  obtain ⟨hror, hamount, -⟩ := h
  have next : ∀ o a b, dataProcessingRegister.pick? [o, false, true, a, b, false] =
      some addSubShiftedClass.name := by
    decide
  have pick : ∀ s a b c, (!a || !b) → (s || !c) →
      addSubShiftedClass.pick? [s, a, b, c] = some "AddSubShifted" := by
    decide
  have kind : (!shift.field.getLsbD 1 || !shift.field.getLsbD 0) = true := by
    cases shift with
    | ror => exact absurd rfl hror
    | _ => rfl
  refine leads_register (x := false) ?_ ?_
    (next (op.field.getLsbD 1) (shift.field.getLsbD 1) (shift.field.getLsbD 0))
    (.pick (by simp [tables]) ?_ (pick _ _ _ _ kind (is64_or_not_testBit hamount))
      (.category .addSubShifted))
  · simp (disch := decide) only [List.map, word, getLsbD_append_high, getLsbD_append_low]
    rfl
  · simp (disch := decide) only [dataProcessingRegister, List.map, word, getLsbD_append_high,
      getLsbD_append_low]
    rfl
  · simp (disch := decide) only [addSubShiftedClass, List.map, word, getLsbD_append_high,
      getLsbD_append_low, Nat.reduceSub, Register.getLsbD_sf, BitVec.getLsbD_ofNat]
    rfl

/-- The word of an addition of an extended register leads to its category. -/
theorem leads_addSubExtended {op : AddSubOp} {rd rn rm : Register} {extend : Extend} {amount : Nat}
    (h : (addSubExtended op rd rn rm extend amount).check = .ok ()) :
    Tables.Leads tables (addSubExtended op rd rn rm extend amount).word (name isa)
      .addSubExtended := by
  simp only [check, bind_eq_ok_iff, require_eq_ok_iff, decide_eq_true_eq] at h
  obtain ⟨hamount, -⟩ := h
  have next : ∀ o, dataProcessingRegister.pick? [o, false, true, false, false, true] =
      some addSubExtendedClass.name := by
    decide
  have pick : ∀ amount < 5, addSubExtendedClass.pick? [false, false, amount.testBit 2,
      amount.testBit 1, amount.testBit 0] = some "AddSubExtended" := by
    decide
  refine leads_register (x := false) ?_ ?_ (next (op.field.getLsbD 1))
    (.pick (by simp [tables]) ?_ (pick amount (by omega)) (.category .addSubExtended))
  · simp (disch := decide) only [List.map, word, getLsbD_append_high, getLsbD_append_low]
    rfl
  · simp (disch := decide) only [dataProcessingRegister, List.map, word, getLsbD_append_high,
      getLsbD_append_low]
    rfl
  · simp (disch := decide) only [addSubExtendedClass, List.map, word, getLsbD_append_high,
      getLsbD_append_low, Nat.reduceSub, BitVec.getLsbD_ofNat]
    rfl

/-- The word of a combination with a shifted register leads to its category. -/
theorem leads_logicalShifted {op : LogicalOp} {invert : Bool} {rd rn rm : Register} {shift : Shift}
    {amount : Nat} (h : (logicalShifted op invert rd rn rm shift amount).check = .ok ()) :
    Tables.Leads tables (logicalShifted op invert rd rn rm shift amount).word (name isa)
      .logicalShifted := by
  simp only [check, bind_eq_ok_iff, require_eq_ok_iff, decide_eq_true_eq] at h
  obtain ⟨hamount, -⟩ := h
  have next : ∀ o a b c, dataProcessingRegister.pick? [o, false, false, a, b, c] =
      some logicalShiftedClass.name := by
    decide
  have pick : ∀ s a, (s || !a) → logicalShiftedClass.pick? [s, a] = some "LogicalShifted" := by
    decide
  refine leads_register (x := false) ?_ ?_ (next (op.field.getLsbD 1) (shift.field.getLsbD 1)
    (shift.field.getLsbD 0) ((BitVec.ofBool invert).getLsbD 0))
    (.pick (by simp [tables]) ?_ (pick _ _ (is64_or_not_testBit hamount))
      (.category .logicalShifted))
  · simp (disch := decide) only [List.map, word, getLsbD_append_high, getLsbD_append_low]
    rfl
  · simp (disch := decide) only [dataProcessingRegister, List.map, word, getLsbD_append_high,
      getLsbD_append_low]
    rfl
  · simp (disch := decide) only [logicalShiftedClass, List.map, word, getLsbD_append_high,
      getLsbD_append_low, Nat.reduceSub, Register.getLsbD_sf, BitVec.getLsbD_ofNat]
    rfl

/-- The word of an access at an unsigned offset leads to its category. -/
theorem leads_loadStoreUnsigned (op : LoadStoreOp) (rt base : Register) (imm12 : Nat) :
    Tables.Leads tables (loadStoreUnsigned op rt base imm12).word (name isa)
      .loadStoreUnsignedOffset := by
  have next : ∀ o, loadsStores.pick? [true, true, false, true, o] =
      some loadStoreUnsignedOffsetClass.name := by
    decide
  have pick : ∀ z₁ z₀ o₁ o₀, (!z₁ || !o₁ || !o₀) →
      loadStoreUnsignedOffsetClass.pick? [z₁, z₀, false, o₁, o₀] =
        some "LoadStoreUnsignedOffset" := by
    decide
  -- only a narrow access extends to 32 bits
  have narrow : (!(op.sizeLog2 rt).testBit 1 || !(op.field rt).getLsbD 1 ||
      !(op.field rt).getLsbD 0) = true := by
    cases op with
    | ldrsb => simp [LoadStoreOp.sizeLog2]
    | ldrsh => simp [LoadStoreOp.sizeLog2, Nat.testBit_succ]
    | _ => simp [LoadStoreOp.field]
  refine leads_loadsStores (x := true) (y := false) ?_ ?_ (next ((op.field rt).getLsbD 1))
    (.pick (by simp [tables]) ?_ (pick _ ((op.sizeLog2 rt).testBit 0) _ _ narrow)
      (.category .loadStoreUnsignedOffset))
  · simp (disch := decide) only [List.map, word, getLsbD_append_high, getLsbD_append_low]
    rfl
  · simp (disch := decide) only [loadsStores, List.map, word, getLsbD_append_high,
      getLsbD_append_low]
    rfl
  · simp (disch := decide) only [loadStoreUnsignedOffsetClass, List.map, word, getLsbD_append_high,
      getLsbD_append_low, Nat.reduceSub, BitVec.getLsbD_ofNat]
    rfl

/-- A load or store with a 9-bit offset goes by the bits of its mode. -/
theorem leads_loadStoreIndexed (op : LoadStoreOp) (rt base : Register) (offset : Int)
    (mode : IndexMode) :
    Tables.Leads tables (loadStoreIndexed op rt base offset mode).word (name isa)
      mode.category := by
  have next : ∀ o, loadsStores.pick? [true, true, false, false, o] =
      some loadStoreRegisterClass.name := by
    decide
  have pick : ∀ mode : IndexMode, loadStoreRegisterClass.pick?
      [false, mode.field.getLsbD 1, mode.field.getLsbD 0] = some mode.category.name := by
    rintro (_ | _ | _) <;> decide
  refine leads_loadsStores (x := true) (y := false) ?_ ?_ (next ((op.field rt).getLsbD 1))
    (.pick (by simp [tables]) ?_ (pick mode) (.category _))
  · simp (disch := decide) only [List.map, word, getLsbD_append_high, getLsbD_append_low]
    rfl
  · simp (disch := decide) only [loadsStores, List.map, word, getLsbD_append_high,
      getLsbD_append_low]
    rfl
  · simp (disch := decide) only [loadStoreRegisterClass, List.map, word, getLsbD_append_high,
      getLsbD_append_low]
    rfl

/-- The word of an access at a register offset leads to its category. -/
theorem leads_loadStoreRegister {op : LoadStoreOp} {rt base index : Register} {extend : Extend}
    {scaled : Bool} (h : (loadStoreRegister op rt base index extend scaled).check = .ok ()) :
    Tables.Leads tables (loadStoreRegister op rt base index extend scaled).word (name isa)
      .loadStoreRegisterOffset := by
  simp only [check, bind_eq_ok_iff, require_eq_ok_iff] at h
  obtain ⟨-, haddress, -⟩ := h
  have next : ∀ o, loadsStores.pick? [true, true, false, false, o] =
      some loadStoreRegisterClass.name := by
    decide
  have mode : loadStoreRegisterClass.pick? [true, true, false] =
      some loadStoreRegisterOffsetClass.name := by
    decide
  have pick : loadStoreRegisterOffsetClass.pick? [true] = some "LoadStoreRegisterOffset" := by
    decide
  have wide : extend.field.getLsbD 1 = true := by
    cases extend <;> first | rfl | cases haddress
  refine leads_loadsStores (x := true) (y := false) ?_ ?_ (next ((op.field rt).getLsbD 1))
    (.pick (t := loadStoreRegisterClass) (by simp [tables]) ?_ mode
      (.pick (by simp [tables]) ?_ pick (.category .loadStoreRegisterOffset)))
  · simp (disch := decide) only [List.map, word, getLsbD_append_high, getLsbD_append_low]
    rfl
  · simp (disch := decide) only [loadsStores, List.map, word, getLsbD_append_high,
      getLsbD_append_low]
    rfl
  · simp (disch := decide) only [loadStoreRegisterClass, List.map, word, getLsbD_append_high,
      getLsbD_append_low]
    rfl
  · simp (disch := decide) only [loadStoreRegisterOffsetClass, List.map, word, getLsbD_append_high,
      getLsbD_append_low, Nat.reduceSub, wide]

/-- In the capability state a branch to a register goes to a capability. -/
theorem leads_branchRegister (op : BranchOp) (rn : Register) :
    Tables.Leads tables (branchRegister op rn).word (name isa)
      ((branchRegister op rn).category isa) := by
  have top : root.pick? [true, false, true, true] = some branchesExceptionSystem.name := by
    decide
  have topC64 : capabilityRoot.pick? [true, false, true, true] =
      some branchesExceptionSystemC64.name := by
    decide
  have next : ∀ a b c, branchesExceptionSystem.pick? [true, true, false, true, a, b, c] =
      some "UnconditionalBranchRegister" := by
    decide
  have nextC64 : ∀ a b c, branchesExceptionSystemC64.pick? [true, true, false, true, a, b, c] =
      some "CapabilityBranchRegister" := by
    decide
  have topBits : [28, 27, 26, 25].map (branchRegister op rn).word.getLsbD =
      [true, false, true, true] := by
    simp (disch := decide) only [List.map, word, getLsbD_append_high]
    rfl
  have nextBits : [31, 30, 29, 25, 24, 23, 22].map (branchRegister op rn).word.getLsbD =
      [true, true, false, true, op.field.getLsbD 3, op.field.getLsbD 2, op.field.getLsbD 1] := by
    simp (disch := decide) only [List.map, word, getLsbD_append_high, getLsbD_append_low]
    rfl
  cases isa with
  | a64 =>
    exact .pick (t := root) (by simp [tables]) topBits top
      (.pick (t := branchesExceptionSystem) (by simp [tables]) nextBits (next _ _ _)
        (.category .unconditionalBranchRegister))
  | c64 =>
    exact .pick (t := capabilityRoot) (by simp [tables]) topBits topC64
      (.pick (t := branchesExceptionSystemC64) (by simp [tables]) nextBits (nextC64 _ _ _)
        (.category .capabilityBranchRegister))

/-- The words of capability forms are in the capability region of the capability state. -/
theorem leads_capability {w : Word} {c : Category} {values : List Bool}
    (htop : [28, 27, 26, 25].map w.getLsbD = [false, false, false, true])
    (hop : [31, 30, 29, 24, 23, 22].map w.getLsbD = values)
    (hpick : capability.pick? values = some c.name) : Tables.Leads tables w (name .c64) c := by
  have top : capabilityRoot.pick? [false, false, false, true] = some capability.name := by
    decide
  exact .pick (t := capabilityRoot) (by simp [tables]) htop top
    (.pick (t := capability) (by simp [tables]) hop hpick (.category c))

/-- In C64, the word of an addition of an immediate to a capability leads to its category. -/
theorem leads_capabilityAddImmediate (subtract : Bool) (cd cn : Register) (imm12 : Nat)
    (shifted : Bool) :
    Tables.Leads tables (capabilityAddImmediate subtract cd cn imm12 shifted).word (name .c64)
      .capabilityArithmetic := by
  have pick : ∀ a b, capability.pick? [false, false, false, false, a, b] =
      some "CapabilityArithmetic" := by
    decide
  refine leads_capability ?_ ?_ (pick ((BitVec.ofBool subtract).getLsbD 0)
    ((BitVec.ofBool shifted).getLsbD 0))
  · simp (disch := decide) only [List.map, word, getLsbD_append_high]
    rfl
  · simp (disch := decide) only [List.map, word, getLsbD_append_high, getLsbD_append_low]
    rfl

/-- In C64, the word of an addition of a register to a capability leads to its category. -/
theorem leads_capabilityAddExtended (cd cn rm : Register) (extend : Extend) (amount : Nat) :
    Tables.Leads tables (capabilityAddExtended cd cn rm extend amount).word (name .c64)
      .capabilityArithmetic := by
  have pick : capability.pick? [true, true, false, false, true, false] =
      some "CapabilityArithmetic" := by
    decide
  refine leads_capability ?_ ?_ pick
  · simp (disch := decide) only [List.map, word, getLsbD_append_high]
    rfl
  · simp (disch := decide) only [List.map, word, getLsbD_append_high]
    rfl

/-- In C64, the word of a branch through memory leads to its category. -/
theorem leads_capabilityBranch (cn : Register) (offset : Int) (link : Bool) :
    Tables.Leads tables (capabilityBranch cn offset link).word (name .c64)
      .capabilityBranchMemory := by
  have pick : capability.pick? [true, true, false, false, false, true] =
      some "CapabilityBranchMemory" := by
    decide
  refine leads_capability ?_ ?_ pick
  · simp (disch := decide) only [List.map, word, getLsbD_append_high]
    rfl
  · simp (disch := decide) only [List.map, word, getLsbD_append_high]
    rfl

end Ways

/-- The tables lead the word of a form that passes the checks to the form's category. -/
theorem leads_word {f : Form} (h : f.check = .ok ()) {isa : Isa} (hisa : f.IsIn isa) :
    Tables.Leads tables f.word (name isa) (f.category isa) := by
  cases f with
  | addSubImmediate => exact leads_addSubImmediate ..
  | addSubShifted => exact leads_addSubShifted h
  | addSubExtended => exact leads_addSubExtended h
  | logicalImmediate => exact leads_logicalImmediate h
  | logicalShifted => exact leads_logicalShifted h
  | moveWide => exact leads_moveWide h
  | bitfield => exact leads_bitfield ..
  | extract => exact leads_extract ..
  | loadStoreUnsigned => exact leads_loadStoreUnsigned ..
  | loadStoreIndexed => exact leads_loadStoreIndexed ..
  | loadStoreRegister => exact leads_loadStoreRegister h
  | branchRegister => exact leads_branchRegister ..
  | capabilityAddImmediate =>
    obtain rfl := hisa
    exact leads_capabilityAddImmediate ..
  | capabilityAddExtended =>
    obtain rfl := hisa
    exact leads_capabilityAddExtended ..
  | capabilityBranch =>
    obtain rfl := hisa
    exact leads_capabilityBranch ..

end Form

end AArch64
