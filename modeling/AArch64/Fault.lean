import AArch64.Register
import AArch64.Text.Digits
import AArch64.Trap

/-!
# Faults of the emitter

Why an instruction is not emitted. A `Rejection` is the answer of a check on the arguments, of the
pool of scratch registers, or of the choice between the forms of an instruction, and says what is
wrong. Arithmetic on the arguments may trap besides; the checks are there so that it does not.

## Main definitions

* `AArch64.Rejection` — what a check finds wrong, with its wording `AArch64.Rejection.message`.
* `AArch64.Fault` — a rejection or a trap.
* `AArch64.require` — goes on only if a check holds.
-/

set_option autoImplicit false

namespace AArch64

/-- What a check finds wrong with an instruction. -/
inductive Rejection
  /-- The immediate of an add or subtract does not fit 12 bits. -/
  | addSubImmediateRange (imm : Nat)
  /-- The source of an add or subtract with an immediate is the zero register. -/
  | addSubImmediateReadsZero
  /-- The destination of an add or subtract with an immediate is the zero register. -/
  | addSubImmediateWritesZero
  /-- An add or subtract that sets the flags writes the stack pointer. -/
  | flagsIntoStack
  /-- Two registers differ in width. -/
  | mixedWidths (a b : Register)
  /-- The operand of an add or subtract is rotated. -/
  | addSubRotates
  /-- A shift amount is too large. -/
  | shiftAmount (amount : Nat)
  /-- A register of a shifted add or subtract is the stack pointer. -/
  | addSubShiftedStack
  /-- The shift of an extended register is too large. -/
  | extendAmount (amount : Nat)
  /-- Field 31 does not mean the register that an extended add or subtract reads. -/
  | addSubExtendedMisuse
  /-- The destination of an extended add or subtract is the zero register. -/
  | addSubExtendedWritesZero
  /-- A bitmask field is out of range. -/
  | bitmaskFields
  /-- The element of a bitmask immediate is wider than the operation. -/
  | bitmaskWidth
  /-- The source of a logical operation with an immediate is the stack pointer. -/
  | logicalImmediateReadsStack
  /-- A logical operation that sets the flags writes the stack pointer. -/
  | andsWritesStack
  /-- The destination of a logical operation with an immediate is the zero register. -/
  | logicalImmediateWritesZero
  /-- A register of a shifted logical operation is the stack pointer. -/
  | logicalShiftedStack
  /-- The immediate of a move wide does not fit 16 bits. -/
  | moveWideRange (imm : Nat)
  /-- The register of a move wide does not have the halfword. -/
  | halfwordRange (hw : Nat) (rd : Register)
  /-- The destination of a move wide is the stack pointer. -/
  | moveWideStack
  /-- A position of a bitfield move is not one of the register. -/
  | bitfieldRange
  /-- A register of a bitfield move is the stack pointer. -/
  | bitfieldStack
  /-- The position of an extract is not one of the register. -/
  | extractRange (lsb : Nat)
  /-- A register of an extract is the stack pointer. -/
  | extractStack
  /-- A scaled offset does not fit 12 bits. -/
  | scaledRange (imm : Nat)
  /-- An unscaled offset does not fit nine bits. -/
  | unscaledRange (offset : Int)
  /-- The base is the zero register. -/
  | zeroBase
  /-- The base that is changed is the transfer register. -/
  | writebackOverlap
  /-- The transfer register is the stack pointer. -/
  | transferStack
  /-- The transfer register of a byte or halfword has 64 bits. -/
  | narrowTransferWidth
  /-- The transfer register of a signed word has 32 bits. -/
  | signedWordWidth
  /-- A register offset is a byte or a halfword. -/
  | registerOffsetExtend
  /-- Field 31 does not mean the register that a register offset uses. -/
  | registerOffsetMisuse
  /-- The target of a branch is the stack pointer. -/
  | branchStack
  /-- A register of a capability addition is no capability. -/
  | capabilityAddView
  /-- A register of a capability addition with an immediate is the zero register. -/
  | capabilityAddImmediateZero
  /-- The offset register of a capability addition is a capability or the stack pointer. -/
  | capabilityOffsetView
  /-- A register of a capability addition with a register is the zero register. -/
  | capabilityAddExtendedZero
  /-- The base of a capability branch is no capability. -/
  | capabilityBranchView
  /-- The offset of a capability branch does not fit. -/
  | capabilityBranchRange (offset : Int)
  /-- A register of integer arithmetic is a capability. -/
  | integerOnCapability
  /-- An immediate does not fit a 32-bit operation. -/
  | immediateRange (imm : Int)
  /-- No form of add or subtract accepts the registers. -/
  | noAddSubForm (rd rn : Register)
  /-- The source of a shift is the stack pointer. -/
  | shiftStack
  /-- The source of an extension is the stack pointer. -/
  | extendStack
  /-- The base has 32 bits. -/
  | baseWidth
  /-- The target of a branch in A64 is not a 64-bit integer register. -/
  | branchView
  /-- The target of a branch in C64 is not a capability. -/
  | branchCapabilityView
  /-- A capability branch outside C64. -/
  | capabilityBranchIsa
  /-- The operand of a capability branch has another addressing mode. -/
  | capabilityBranchMode
  /-- No scratch register is left. -/
  | poolExhausted
  /-- A scratch register is released that is available. -/
  | releasedAvailable (r : Register)
  /-- No general-purpose register has the number. -/
  | registerNumber
  /-- What has to be one instruction is none or several. -/
  | instructionCount
  deriving DecidableEq

/-- The wording of a rejection. -/
def Rejection.message : Rejection → String
  | .addSubImmediateRange imm => s!"add/sub immediate out of range: {imm}"
  | .addSubImmediateReadsZero => "add/sub immediate cannot read the zero register"
  | .addSubImmediateWritesZero => "add/sub immediate cannot write the zero register"
  | .flagsIntoStack => "flag-setting add/sub cannot write the stack pointer"
  | .mixedWidths a b => s!"mixed register widths: {a.name}, {b.name}"
  | .addSubRotates => "add/sub cannot rotate its operand"
  | .shiftAmount amount => s!"shift amount out of range: {amount}"
  | .addSubShiftedStack => "shifted add/sub cannot use the stack pointer"
  | .extendAmount amount => s!"extend shift out of range: {amount}"
  | .addSubExtendedMisuse => "extended add/sub register 31 misuse"
  | .addSubExtendedWritesZero => "extended add/sub cannot write the zero register"
  | .bitmaskFields => "malformed bitmask immediate"
  | .bitmaskWidth => "64-bit element in a 32-bit operation"
  | .logicalImmediateReadsStack => "logical immediate cannot read the stack pointer"
  | .andsWritesStack => "ands cannot write the stack pointer"
  | .logicalImmediateWritesZero => "logical immediate cannot write the zero register"
  | .logicalShiftedStack => "shifted logical operations cannot use the stack pointer"
  | .moveWideRange imm => s!"move wide immediate out of range: {Text.prefixedHex imm}"
  | .halfwordRange hw rd => s!"halfword {hw} out of range for {rd.name}"
  | .moveWideStack => "move wide cannot write the stack pointer"
  | .bitfieldRange => "bitfield positions out of range"
  | .bitfieldStack => "bitfield moves cannot use the stack pointer"
  | .extractRange lsb => s!"extract position out of range: {lsb}"
  | .extractStack => "extract cannot use the stack pointer"
  | .scaledRange imm => s!"scaled offset out of range: {imm}"
  | .unscaledRange offset => s!"unscaled offset out of range: {offset}"
  | .zeroBase => "the base register cannot be the zero register"
  | .writebackOverlap => "writeback with the transfer register as base is unpredictable"
  | .transferStack => "the transfer register cannot be the stack pointer"
  | .narrowTransferWidth => "byte and halfword transfers use a w register"
  | .signedWordWidth => "ldrsw needs an x register"
  | .registerOffsetExtend => "register offsets only extend words and doublewords"
  | .registerOffsetMisuse => "register offset register 31 misuse"
  | .branchStack => "cannot branch to the stack pointer"
  | .capabilityAddView => "capability add needs c registers"
  | .capabilityAddImmediateZero => "capability add/sub register 31 is csp"
  | .capabilityOffsetView => "the offset must be an integer register"
  | .capabilityAddExtendedZero => "capability add register 31 is csp"
  | .capabilityBranchView => "capability branches use a c register base"
  | .capabilityBranchRange offset => s!"capability branch offset out of range: {offset}"
  | .integerOnCapability => "integer arithmetic on a capability register"
  | .immediateRange imm =>
    s!"immediate {Text.twosComplementHex imm} does not fit a 32-bit operation"
  | .noAddSubForm rd rn =>
    s!"no add/sub form accepts {rd.name}, {rn.name} after materializing the operand"
  | .shiftStack => "cannot shift the stack pointer"
  | .extendStack => "cannot extend the stack pointer"
  | .baseWidth => "the base register must be 64 bits wide"
  | .branchView => "A64 branches take an x register"
  | .branchCapabilityView => "C64 branches take a c register"
  | .capabilityBranchIsa => "capability branches need the C64 instruction set"
  | .capabilityBranchMode => "capability branches take a [cn, #offset] operand"
  | .poolExhausted => "scratch register pool exhausted"
  | .releasedAvailable r => s!"{r.name} released while already available"
  | .registerNumber => "register number out of range"
  | .instructionCount => "a terminal path must emit exactly one instruction"

/-- Why an instruction is not emitted. -/
inductive Fault
  /-- A check finds something wrong. -/
  | rejected (r : Rejection)
  /-- The arithmetic on the arguments has no answer. -/
  | trapped (t : Trap)
  deriving DecidableEq

/-- Goes on if a check holds. -/
def require {m : Type → Type} [Monad m] [MonadExceptOf Fault m] (holds : Bool) (r : Rejection) :
    m Unit :=
  if holds then pure () else throw (.rejected r)

/-- Arithmetic that may trap, among steps that may fault. -/
def Fault.ofTrap {α : Type} (x : Except Trap α) : Except Fault α :=
  x.mapError .trapped

end AArch64
