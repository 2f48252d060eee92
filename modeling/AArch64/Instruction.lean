import AArch64.Category
import AArch64.Immediate.Bitmask
import AArch64.Operand

/-!
# Decoded instructions

A word with the category that it was classified as, the instruction set that it was decoded for
and its byte offset in the decoded stream. The views of its fields depend on the category: a field
that the category does not have reads as `none`.

## Main definitions

* `AArch64.Instruction` — the decoded word.
* `AArch64.Instruction.rd`, `AArch64.Instruction.rn`, `AArch64.Instruction.rm` — register fields.
* `AArch64.Instruction.addSubImmediate?`, `AArch64.Instruction.logicalImmediate?`,
  `AArch64.Instruction.moveWide?`, `AArch64.Instruction.loadStoreOffset?`,
  `AArch64.Instruction.branchOffset?` — immediates as numbers.
* `AArch64.Instruction.shift?`, `AArch64.Instruction.extend?` — the operand register's.
-/

set_option autoImplicit false

namespace AArch64

/-- A decoded instruction. -/
structure Instruction where
  /-- The word. -/
  word : Word
  /-- The encoding class of the word. -/
  category : Category
  /-- The instruction set that the word was decoded for. -/
  isa : Isa
  /-- The byte offset of the word in the decoded stream. -/
  offset : Nat
  deriving DecidableEq

namespace Instruction

/-- The bits `lo ..< lo + n` of the word. -/
def bits (i : Instruction) (lo n : Nat) : BitVec n :=
  i.word.extractLsb' lo n

/-- One bit of the word. -/
def bit (i : Instruction) (n : Nat) : Bool :=
  i.word.getLsbD n

/-! ## Fields of every word -/

/-- The destination register field. -/
def rd (i : Instruction) : Nat :=
  (i.bits 0 5).toNat

/-- The transfer register field of loads and stores, which is the same field. -/
def rt (i : Instruction) : Nat :=
  i.rd

/-- The first source or base register field. -/
def rn (i : Instruction) : Nat :=
  (i.bits 5 5).toNat

/-- The second source or index register field. -/
def rm (i : Instruction) : Nat :=
  (i.bits 16 5).toNat

/-- The size bit `sf`: a data processing operation has 64 bits. -/
def is64 (i : Instruction) : Bool :=
  i.bit 31

/-- The width of a data processing operation. -/
def width (i : Instruction) : Nat :=
  if i.is64 then 64 else 32

/-! ## Data processing -/

/-- Whether this adds or subtracts integers. -/
def isAddSub (i : Instruction) : Bool :=
  i.category = .addSubImmediate ∨ i.category = .addSubShifted ∨ i.category = .addSubExtended

/-- Whether this subtracts integers. -/
def isSubtract (i : Instruction) : Bool :=
  i.isAddSub && i.bit 30

/-- Whether this adds or subtracts integers and sets the flags. -/
def setsFlags (i : Instruction) : Bool :=
  i.isAddSub && i.bit 29

/-- The immediate that is added; subtraction adds the negative. -/
def addSubImmediate? (i : Instruction) : Option Int :=
  if i.category = .addSubImmediate then
    let imm : Int := (i.bits 10 12).toNat * if i.bit 22 then 4096 else 1
    some (if i.isSubtract then -imm else imm)
  else none

/-- The bitmask fields of a logical immediate. -/
def bitmask (i : Instruction) : Bitmask where
  n := (i.bits 22 1).toNat
  immr := (i.bits 16 6).toNat
  imms := (i.bits 10 6).toNat

/-- The bitmask immediate, at the width of the operation. -/
def logicalImmediate? (i : Instruction) : Option Nat :=
  if i.category = .logicalImmediate then i.bitmask.value? i.width else none

/-- The halfword of a move wide, and how far it is shifted. -/
def moveWide? (i : Instruction) : Option (Nat × Nat) :=
  if i.category = .moveWide then some ((i.bits 5 16).toNat, (i.bits 21 2).toNat * 16) else none

/-- The fields `immr` and `imms` of a bitfield move. For an extract they are zero and the position
of the lowest bit. -/
def bitfield? (i : Instruction) : Option (Nat × Nat) :=
  match i.category with
  | .bitfield => some ((i.bits 16 6).toNat, (i.bits 10 6).toNat)
  | .extract => some (0, (i.bits 10 6).toNat)
  | _ => none

/-- How the shifted register forms shift `rm`. -/
def shift? (i : Instruction) : Option (Shift × Nat) :=
  match i.category with
  | .logicalShifted | .addSubShifted => some (.ofField (i.bits 22 2), (i.bits 10 6).toNat)
  | _ => none

/-! ## Loads and stores -/

/-- Whether this is a load or store of one register with an offset. -/
def isLoadStore (i : Instruction) : Bool :=
  match i.category with
  | .loadStoreUnsignedOffset | .loadStoreUnscaledOffset | .loadStorePreIndex
  | .loadStorePostIndex | .loadStoreRegisterOffset | .loadStoreUnprivileged => true
  | _ => false

/-- The logarithm of the size of the access in bytes. -/
def accessSizeLog2? (i : Instruction) : Option Nat :=
  if i.isLoadStore then some (i.bits 30 2).toNat else none

/-- Whether this loads. Stores have `opc = 00`. -/
def isLoad (i : Instruction) : Bool :=
  i.isLoadStore && i.bits 22 2 ≠ 0

/-- How the extended register forms extend `rm`, and by how much they shift it then. A register
offset is shifted by nothing or by the size of the access. -/
def extend? (i : Instruction) : Option (Extend × Nat) :=
  let extend := Extend.ofField (i.bits 13 3)
  match i.category with
  | .addSubExtended => some (extend, (i.bits 10 3).toNat)
  | .loadStoreRegisterOffset => some (extend, if i.bit 12 then (i.bits 30 2).toNat else 0)
  | _ => none

/-- The offset of an addressing form with an immediate, in bytes. -/
def loadStoreOffset? (i : Instruction) : Option Int :=
  match i.category with
  | .loadStoreUnsignedOffset => some ((i.bits 10 12).toNat * 2 ^ (i.bits 30 2).toNat : Nat)
  | .loadStoreUnscaledOffset | .loadStorePreIndex | .loadStorePostIndex | .loadStoreUnprivileged =>
    some (i.bits 12 9).toInt
  | _ => none

/-! ## Branches -/

/-- The offset of a branch relative to the program counter in bytes; for a branch through memory
the offset from the base capability. -/
def branchOffset? (i : Instruction) : Option Int :=
  match i.category with
  | .unconditionalBranchImmediate => some ((i.bits 0 26).toInt * 4)
  | .conditionalBranch | .compareBranch => some ((i.bits 5 19).toInt * 4)
  | .testBranch => some ((i.bits 5 14).toInt * 4)
  | .capabilityBranchMemory => some ((i.bits 15 7).toInt * 16)
  | _ => none

/-- Whether a branch leaves its return address in the link register. -/
def isLink (i : Instruction) : Bool :=
  match i.category with
  | .unconditionalBranchImmediate => i.bit 31
  | .unconditionalBranchRegister | .capabilityBranchRegister => i.bits 21 4 = 1
  | .capabilityBranchMemory => i.bit 0
  | _ => false

/-- The condition of a conditional branch. -/
def condition? (i : Instruction) : Option Nat :=
  if i.category = .conditionalBranch then some (i.bits 0 4).toNat else none

end Instruction

end AArch64
