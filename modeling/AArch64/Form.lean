import AArch64.Immediate.Bitmask
import AArch64.Operand

/-!
# Encoding forms

The instructions that can be encoded, each with the arguments of its encoding form: registers,
immediates as the fields hold them, and the operation among those that share the form. Which
arguments a form accepts is part of its encoding.

## Main definitions

* `AArch64.AddSubOp`, `AArch64.LogicalOp`, `AArch64.MoveWideOp`, `AArch64.BitfieldOp`,
  `AArch64.IndexMode`, `AArch64.BranchOp`, `AArch64.LoadStoreOp` — operations that share a form.
* `AArch64.Form` — the forms.
-/

set_option autoImplicit false

namespace AArch64

/-! ## Operations that share a form -/

/-- An addition or subtraction. -/
inductive AddSubOp
  /-- Addition. -/
  | add
  /-- Addition, setting the flags. -/
  | adds
  /-- Subtraction. -/
  | sub
  /-- Subtraction, setting the flags. -/
  | subs
  deriving DecidableEq

namespace AddSubOp

/-- Whether this subtracts. -/
def isSub (op : AddSubOp) : Bool :=
  op = .sub ∨ op = .subs

/-- Whether this sets the flags. -/
def setsFlags (op : AddSubOp) : Bool :=
  op = .adds ∨ op = .subs

/-- The operation that does the same with the negative of the operand. -/
def dual : AddSubOp → AddSubOp
  | .add => .sub
  | .adds => .subs
  | .sub => .add
  | .subs => .adds

/-- The dual of the dual operation is the operation. -/
theorem dual_dual (op : AddSubOp) : op.dual.dual = op := by
  cases op <;> rfl

/-- The bits `op` and `S`. -/
def field (op : AddSubOp) : BitVec 2 :=
  BitVec.ofBool op.isSub ++ BitVec.ofBool op.setsFlags

end AddSubOp

/-- A logical operation. -/
inductive LogicalOp
  /-- Conjunction. -/
  | and
  /-- Disjunction. -/
  | orr
  /-- Exclusive disjunction. -/
  | eor
  /-- Conjunction, setting the flags. -/
  | ands
  deriving DecidableEq

/-- The field `opc` of a logical operation. -/
def LogicalOp.field : LogicalOp → BitVec 2
  | .and => 0
  | .orr => 1
  | .eor => 2
  | .ands => 3

/-- A move wide. -/
inductive MoveWideOp
  /-- The complement of the shifted halfword. -/
  | movn
  /-- The shifted halfword. -/
  | movz
  /-- The halfword, in place of the one that the register has there. -/
  | movk
  deriving DecidableEq

/-- The field `opc` of a move wide. -/
def MoveWideOp.field : MoveWideOp → BitVec 2
  | .movn => 0
  | .movz => 2
  | .movk => 3

/-- A bitfield move. -/
inductive BitfieldOp
  /-- Filling up with the sign of the field. -/
  | sbfm
  /-- Leaving the rest of the register alone. -/
  | bfm
  /-- Filling up with zeros. -/
  | ubfm
  deriving DecidableEq

/-- The field `opc` of a bitfield move. -/
def BitfieldOp.field : BitfieldOp → BitVec 2
  | .sbfm => 0
  | .bfm => 1
  | .ubfm => 2

/-- What a load or store with a 9-bit offset does with it. -/
inductive IndexMode
  /-- The offset is added for the address only. -/
  | unscaled
  /-- The offset is added to the base after the access. -/
  | postIndex
  /-- The offset is added to the base before the access. -/
  | preIndex
  deriving DecidableEq

/-- The bits 11 and 10 of a load or store with a 9-bit offset. -/
def IndexMode.field : IndexMode → BitVec 2
  | .unscaled => 0
  | .postIndex => 1
  | .preIndex => 3

/-- A branch to a register. -/
inductive BranchOp
  /-- A plain branch. -/
  | br
  /-- A call. -/
  | blr
  /-- A return. -/
  | ret
  deriving DecidableEq

/-- The field `opc` of a branch to a register. -/
def BranchOp.field : BranchOp → BitVec 4
  | .br => 0
  | .blr => 1
  | .ret => 2

/-- A load or store of one integer register. -/
inductive LoadStoreOp
  /-- Loads the register. -/
  | ldr
  /-- Stores the register. -/
  | str
  /-- Loads a byte. -/
  | ldrb
  /-- Stores a byte. -/
  | strb
  /-- Loads a halfword. -/
  | ldrh
  /-- Stores a halfword. -/
  | strh
  /-- Loads a byte with its sign. -/
  | ldrsb
  /-- Loads a halfword with its sign. -/
  | ldrsh
  /-- Loads a word with its sign. -/
  | ldrsw
  deriving DecidableEq

namespace LoadStoreOp

/-- The logarithm of the size of the access in bytes, for a transfer register. -/
def sizeLog2 (op : LoadStoreOp) (rt : Register) : Nat :=
  match op with
  | .ldr | .str => if rt.is64 then 3 else 2
  | .ldrb | .strb | .ldrsb => 0
  | .ldrh | .strh | .ldrsh => 1
  | .ldrsw => 2

/-- Accesses have 8 bytes at most. -/
theorem sizeLog2_lt (op : LoadStoreOp) (rt : Register) : op.sizeLog2 rt < 4 := by
  cases op with
  | ldr => simp only [sizeLog2]; split <;> omega
  | str => simp only [sizeLog2]; split <;> omega
  | _ => simp only [sizeLog2]; omega

/-- Whether this loads. -/
def isLoad (op : LoadStoreOp) : Bool :=
  op ≠ .str ∧ op ≠ .strb ∧ op ≠ .strh

/-- The field `opc`. A signed load says whether it extends to 64 or to 32 bits. -/
def field (op : LoadStoreOp) (rt : Register) : BitVec 2 :=
  match op with
  | .str | .strb | .strh => 0
  | .ldr | .ldrb | .ldrh => 1
  | .ldrsw => 2
  | .ldrsb | .ldrsh => if rt.is64 then 2 else 3

end LoadStoreOp

/-! ## Forms -/

/-- An instruction in one of the encoding forms. -/
inductive Form
  /-- Add or subtract a 12-bit immediate, shifted left by 12 if `shifted`. -/
  | addSubImmediate (op : AddSubOp) (rd rn : Register) (imm12 : Nat) (shifted : Bool)
  /-- Add or subtract a shifted register. -/
  | addSubShifted (op : AddSubOp) (rd rn rm : Register) (shift : Shift) (amount : Nat)
  /-- Add or subtract an extended register. -/
  | addSubExtended (op : AddSubOp) (rd rn rm : Register) (extend : Extend) (amount : Nat)
  /-- Logical operation with a bitmask immediate. -/
  | logicalImmediate (op : LogicalOp) (rd rn : Register) (bitmask : Bitmask)
  /-- Logical operation with a shifted register, complemented if `invert`. -/
  | logicalShifted (op : LogicalOp) (invert : Bool) (rd rn rm : Register) (shift : Shift)
    (amount : Nat)
  /-- Move a halfword to halfword `hw`. -/
  | moveWide (op : MoveWideOp) (rd : Register) (imm16 hw : Nat)
  /-- Move a bitfield. -/
  | bitfield (op : BitfieldOp) (rd rn : Register) (immr imms : Nat)
  /-- Extract a register from bit `lsb` of a pair of registers. -/
  | extract (rd rn rm : Register) (lsb : Nat)
  /-- Load or store with an offset that is a multiple `imm12` of the access size. -/
  | loadStoreUnsigned (op : LoadStoreOp) (rt base : Register) (imm12 : Nat)
  /-- Load or store with a 9-bit offset. -/
  | loadStoreIndexed (op : LoadStoreOp) (rt base : Register) (offset : Int) (mode : IndexMode)
  /-- Load or store with a register offset, scaled by the access size if `scaled`. -/
  | loadStoreRegister (op : LoadStoreOp) (rt base index : Register) (extend : Extend)
    (scaled : Bool)
  /-- Branch to a register. -/
  | branchRegister (op : BranchOp) (rn : Register)
  /-- Add a 12-bit immediate to a capability or subtract it. -/
  | capabilityAddImmediate (subtract : Bool) (cd cn : Register) (imm12 : Nat) (shifted : Bool)
  /-- Add an extended register to a capability. -/
  | capabilityAddExtended (cd cn rm : Register) (extend : Extend) (amount : Nat)
  /-- Branch to the capability that is stored at an offset from a base. -/
  | capabilityBranch (cn : Register) (offset : Int) (link : Bool)
  deriving DecidableEq

end AArch64
