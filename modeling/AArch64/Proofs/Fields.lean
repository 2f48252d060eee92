import AArch64.Form
import AArch64.Proofs.Registers

/-!
# What fields stand for

The registers and the operations that fields of a word select, and the way back. A register field
does not tell the zero register from the stack pointer, and some operations leave values of their
field reserved.

## Main definitions

* `AArch64.Register.ofField` — the register of a field.
* `AArch64.AddSubOp.ofField`, `AArch64.LogicalOp.ofField`, `AArch64.MoveWideOp.ofField?`,
  `AArch64.BitfieldOp.ofField?` — the operation of a field.
-/

set_option autoImplicit false

namespace AArch64

/-! ## Registers -/

namespace Register

/-- The register of a field, in a view. Field 31 is the stack pointer if `stack`, else the zero
register. -/
def ofField (field : BitVec 5) (view : RegisterView) (stack : Bool) : Register where
  code := if field = 31 then (if stack then stackCode else zeroCode) else field.setWidth 8
  view := view

variable (field : BitVec 5) (view : RegisterView) (stack : Bool)

/-- The register of a field has the field. -/
@[simp] theorem field_ofField : (ofField field view stack).field = field := by
  cases stack <;> revert field <;> cases view <;> decide

/-- It is the stack pointer exactly if the field is 31 and 31 is the stack pointer there. -/
@[simp] theorem isStack_ofField :
    (ofField field view stack).isStack = (stack && field = 31) := by
  cases stack <;> revert field <;> cases view <;> decide

/-- It is the zero register exactly if the field is 31 and 31 is the zero register there. -/
@[simp] theorem isZero_ofField : (ofField field view stack).isZero = (!stack && field = 31) := by
  cases stack <;> revert field <;> cases view <;> decide

/-- It has 64 bits exactly if its view does not have 32. -/
@[simp] theorem is64_ofField : (ofField field view stack).is64 = decide (view ≠ .w) := rfl

/-- The register of a field can be built. -/
theorem isBuilt_ofField : (ofField field view stack).IsBuilt := by
  by_cases h : field = 31
  · subst h
    cases stack
    · exact .inr (.inl rfl)
    · exact .inr (.inr rfl)
  · have lt : field.toNat < generalCount := by
      have ne : field.toNat ≠ 31 := fun h' => h (BitVec.eq_of_toNat_eq h')
      have := field.isLt
      show field.toNat < 31
      omega
    refine .inl ⟨field.toNat, ?_⟩
    rw [general?, if_pos lt, ofField, if_neg h, BitVec.ofNat_toNat]

end Register

/-! ## Operations -/

/-- The addition or subtraction of the bits `op` and `S`. -/
def AddSubOp.ofField (field : BitVec 2) : AddSubOp :=
  match field.toNat with
  | 0 => .add
  | 1 => .adds
  | 2 => .sub
  | _ => .subs

/-- Every field is the one of an addition or a subtraction. -/
@[simp] theorem AddSubOp.field_ofField (f : BitVec 2) : (ofField f).field = f := by
  revert f; decide

/-- The logical operation of the field `opc`. -/
def LogicalOp.ofField (field : BitVec 2) : LogicalOp :=
  match field.toNat with
  | 0 => .and
  | 1 => .orr
  | 2 => .eor
  | _ => .ands

/-- Every field is the one of a combination. -/
@[simp] theorem LogicalOp.field_ofField (f : BitVec 2) : (ofField f).field = f := by
  revert f; decide

/-- The field of a combination gives it back. -/
theorem LogicalOp.ofField_field (op : LogicalOp) : ofField op.field = op := by
  cases op <;> rfl

/-- The move wide of the field `opc`. -/
def MoveWideOp.ofField? (field : BitVec 2) : Option MoveWideOp :=
  match field.toNat with
  | 0 => some .movn
  | 1 => none
  | 2 => some .movz
  | _ => some .movk

/-- A field that is not reserved is the one of a move. -/
theorem MoveWideOp.exists_ofField? {f : BitVec 2} (h : f.getLsbD 1 || !f.getLsbD 0) :
    ∃ op, ofField? f = some op ∧ op.field = f := by
  have cases : f = 0 ∨ f = 2 ∨ f = 3 := by
    revert f; decide
  rcases cases with rfl | rfl | rfl
  exacts [⟨.movn, rfl, rfl⟩, ⟨.movz, rfl, rfl⟩, ⟨.movk, rfl, rfl⟩]

/-- The field of a move gives it back. -/
theorem MoveWideOp.ofField?_field (op : MoveWideOp) : ofField? op.field = some op := by
  cases op <;> rfl

/-- The bitfield move of the field `opc`. -/
def BitfieldOp.ofField? (field : BitVec 2) : Option BitfieldOp :=
  match field.toNat with
  | 0 => some .sbfm
  | 1 => some .bfm
  | 2 => some .ubfm
  | _ => none

/-- A field that is not reserved is the one of a move of a bit field. -/
theorem BitfieldOp.exists_ofField? {f : BitVec 2} (h : !f.getLsbD 1 || !f.getLsbD 0) :
    ∃ op, ofField? f = some op ∧ op.field = f := by
  have cases : f = 0 ∨ f = 1 ∨ f = 2 := by
    revert f; decide
  rcases cases with rfl | rfl | rfl
  exacts [⟨.sbfm, rfl, rfl⟩, ⟨.bfm, rfl, rfl⟩, ⟨.ubfm, rfl, rfl⟩]

/-- The field of a move of a bit field gives it back. -/
theorem BitfieldOp.ofField?_field (op : BitfieldOp) : ofField? op.field = some op := by
  cases op <;> rfl

end AArch64
