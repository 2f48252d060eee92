/-!
# Instruction sets and encoding classes

A word is classified for one of two instruction sets. The base instruction set is A64; C64 is its
capability state, in which branches and program-counter relative addressing work on capabilities
and one further region of the opcode space is allocated.

A `Category` is one class of the A64 encoding index, not one mnemonic. Two categories are special
and are ordinary answers all the same: reserved encodings are `unallocated`, and allocated
encodings outside the integer subset (SVE, SIMD and floating point) are `unimplemented`.

## Main definitions

* `AArch64.Isa` — the instruction set, with its text.
* `AArch64.Category` — the encoding class, with its name and its position in `Category.all`.
-/

set_option autoImplicit false

namespace AArch64

/-! ## Instruction sets -/

/-- The instruction set that a word is read in. -/
inductive Isa
  /-- The base instruction set. -/
  | a64
  /-- The capability state. -/
  | c64
  deriving DecidableEq, Inhabited

namespace Isa

/-- Both instruction sets, the base one first. -/
def all : List Isa :=
  [.a64, .c64]

/-- The text of an instruction set. -/
def text : Isa → String
  | .a64 => "a64"
  | .c64 => "c64"

/-- The position of an instruction set in `all`. -/
def index : Isa → Nat
  | .a64 => 0
  | .c64 => 1

/-- The instruction set with the given text, in letters of either case. -/
def ofText? (s : String) : Option Isa :=
  all.find? fun isa => isa.text = s.map Char.toLower

/-- The text of an instruction set is read back. -/
theorem ofText?_text (isa : Isa) : ofText? isa.text = some isa := by
  cases isa <;> decide +kernel

end Isa

/-! ## Encoding classes -/

/-- The encoding class of a word. -/
inductive Category
  /-- Reserved encoding. -/
  | unallocated
  /-- Allocated encoding that is not classified any further. -/
  | unimplemented
  /-- `ADR`, `ADRP`. -/
  | pcRelAddressing
  /-- Add and subtract, immediate. -/
  | addSubImmediate
  /-- Logical operation, bitmask immediate. -/
  | logicalImmediate
  /-- `MOVZ`, `MOVN`, `MOVK`. -/
  | moveWide
  /-- Bitfield move. -/
  | bitfield
  /-- `EXTR`. -/
  | extract
  /-- `B.cond`. -/
  | conditionalBranch
  /-- `SVC`, `BRK` and their like. -/
  | exceptionGeneration
  /-- System instruction, hint or barrier. -/
  | system
  /-- `BR`, `BLR`, `RET`. -/
  | unconditionalBranchRegister
  /-- `B`, `BL`. -/
  | unconditionalBranchImmediate
  /-- `CBZ`, `CBNZ`. -/
  | compareBranch
  /-- `TBZ`, `TBNZ`. -/
  | testBranch
  /-- Exclusive and ordered access. -/
  | loadStoreExclusive
  /-- Load relative to the program counter. -/
  | loadLiteral
  /-- Pair, non-temporal. -/
  | loadStorePairNonTemporal
  /-- Pair, post-index. -/
  | loadStorePairPostIndex
  /-- Pair, offset. -/
  | loadStorePairOffset
  /-- Pair, pre-index. -/
  | loadStorePairPreIndex
  /-- Unscaled 9-bit offset. -/
  | loadStoreUnscaledOffset
  /-- Post-index. -/
  | loadStorePostIndex
  /-- Unprivileged access. -/
  | loadStoreUnprivileged
  /-- Pre-index. -/
  | loadStorePreIndex
  /-- Atomic memory operation. -/
  | atomicMemory
  /-- Register offset. -/
  | loadStoreRegisterOffset
  /-- Load with pointer authentication. -/
  | loadStorePac
  /-- Scaled 12-bit offset. -/
  | loadStoreUnsignedOffset
  /-- Logical operation, shifted register. -/
  | logicalShifted
  /-- Add and subtract, shifted register. -/
  | addSubShifted
  /-- Add and subtract, extended register. -/
  | addSubExtended
  /-- `ADC`, `SBC`. -/
  | addSubWithCarry
  /-- Conditional compare, register. -/
  | conditionalCompareRegister
  /-- Conditional compare, immediate. -/
  | conditionalCompareImmediate
  /-- `CSEL` and its kin. -/
  | conditionalSelect
  /-- One source register. -/
  | dataProcessing1Source
  /-- Two source registers. -/
  | dataProcessing2Source
  /-- Three source registers. -/
  | dataProcessing3Source
  /-- `BR`, `BLR`, `RET` through a capability register. -/
  | capabilityBranchRegister
  /-- `ADR`, `ADRP` producing a capability. -/
  | capabilityPcRelAddressing
  /-- Branch through a capability loaded from memory. -/
  | capabilityBranchMemory
  /-- Add and subtract on a capability. -/
  | capabilityArithmetic
  deriving DecidableEq

namespace Category

/-- Every category, in the order of the encoding index. -/
def all : List Category :=
  [.unallocated, .unimplemented, .pcRelAddressing, .addSubImmediate, .logicalImmediate, .moveWide,
   .bitfield, .extract, .conditionalBranch, .exceptionGeneration, .system,
   .unconditionalBranchRegister, .unconditionalBranchImmediate, .compareBranch, .testBranch,
   .loadStoreExclusive, .loadLiteral, .loadStorePairNonTemporal, .loadStorePairPostIndex,
   .loadStorePairOffset, .loadStorePairPreIndex, .loadStoreUnscaledOffset, .loadStorePostIndex,
   .loadStoreUnprivileged, .loadStorePreIndex, .atomicMemory, .loadStoreRegisterOffset,
   .loadStorePac, .loadStoreUnsignedOffset, .logicalShifted, .addSubShifted, .addSubExtended,
   .addSubWithCarry, .conditionalCompareRegister, .conditionalCompareImmediate, .conditionalSelect,
   .dataProcessing1Source, .dataProcessing2Source, .dataProcessing3Source,
   .capabilityBranchRegister, .capabilityPcRelAddressing, .capabilityBranchMemory,
   .capabilityArithmetic]

/-- The name of a category in tables, listings and files. -/
def name : Category → String
  | .unallocated => "Unallocated"
  | .unimplemented => "Unimplemented"
  | .pcRelAddressing => "PcRelAddressing"
  | .addSubImmediate => "AddSubImmediate"
  | .logicalImmediate => "LogicalImmediate"
  | .moveWide => "MoveWide"
  | .bitfield => "Bitfield"
  | .extract => "Extract"
  | .conditionalBranch => "ConditionalBranch"
  | .exceptionGeneration => "ExceptionGeneration"
  | .system => "System"
  | .unconditionalBranchRegister => "UnconditionalBranchRegister"
  | .unconditionalBranchImmediate => "UnconditionalBranchImmediate"
  | .compareBranch => "CompareBranch"
  | .testBranch => "TestBranch"
  | .loadStoreExclusive => "LoadStoreExclusive"
  | .loadLiteral => "LoadLiteral"
  | .loadStorePairNonTemporal => "LoadStorePairNonTemporal"
  | .loadStorePairPostIndex => "LoadStorePairPostIndex"
  | .loadStorePairOffset => "LoadStorePairOffset"
  | .loadStorePairPreIndex => "LoadStorePairPreIndex"
  | .loadStoreUnscaledOffset => "LoadStoreUnscaledOffset"
  | .loadStorePostIndex => "LoadStorePostIndex"
  | .loadStoreUnprivileged => "LoadStoreUnprivileged"
  | .loadStorePreIndex => "LoadStorePreIndex"
  | .atomicMemory => "AtomicMemory"
  | .loadStoreRegisterOffset => "LoadStoreRegisterOffset"
  | .loadStorePac => "LoadStorePac"
  | .loadStoreUnsignedOffset => "LoadStoreUnsignedOffset"
  | .logicalShifted => "LogicalShifted"
  | .addSubShifted => "AddSubShifted"
  | .addSubExtended => "AddSubExtended"
  | .addSubWithCarry => "AddSubWithCarry"
  | .conditionalCompareRegister => "ConditionalCompareRegister"
  | .conditionalCompareImmediate => "ConditionalCompareImmediate"
  | .conditionalSelect => "ConditionalSelect"
  | .dataProcessing1Source => "DataProcessing1Source"
  | .dataProcessing2Source => "DataProcessing2Source"
  | .dataProcessing3Source => "DataProcessing3Source"
  | .capabilityBranchRegister => "CapabilityBranchRegister"
  | .capabilityPcRelAddressing => "CapabilityPcRelAddressing"
  | .capabilityBranchMemory => "CapabilityBranchMemory"
  | .capabilityArithmetic => "CapabilityArithmetic"

/-- The position of a category in `all`. -/
def index (c : Category) : Nat :=
  all.idxOf c

/-- The category of a name. -/
def ofName? (s : String) : Option Category :=
  all.find? fun c => c.name = s

/-- Every category is listed. -/
theorem mem_all (c : Category) : c ∈ all := by
  cases c <;> decide

/-- The name of a category is read back. -/
theorem ofName?_name (c : Category) : ofName? c.name = some c := by
  cases c <;> rfl

/-- Whether a word of this category is reserved or not classified. -/
def isUnknown (c : Category) : Bool :=
  c = .unallocated ∨ c = .unimplemented

end Category

end AArch64
