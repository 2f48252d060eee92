import AArch64.Fault
import AArch64.Form

/-!
# The encoding of forms

Every form is encoded as one word, or rejected because its arguments do not fit. A form accepts
the zero register or the stack pointer in a register field where field 31 means that register.

```text
add/sub (immediate)        sf op S 100010 sh imm12 Rn Rd
add/sub (shifted)          sf op S 01011 shift 0 Rm imm6 Rn Rd
add/sub (extended)         sf op S 01011 00 1 Rm option imm3 Rn Rd
logical (immediate)        sf opc 100100 N immr imms Rn Rd
logical (shifted)          sf opc 01010 shift N Rm imm6 Rn Rd
move wide                  sf opc 100101 hw imm16 Rd
bitfield                   sf opc 100110 N immr imms Rn Rd
extract                    sf 00 100111 N 0 Rm imms Rn Rd
load/store (unsigned imm)  size 111 0 01 opc imm12 Rn Rt
load/store (imm9)          size 111 0 00 opc 0 imm9 mode Rn Rt
load/store (register)      size 111 0 00 opc 1 Rm option S 10 Rn Rt
branch (register)          1101011 opc 11111 000000 Rn 00000
capability add (immediate) 0000 0010 op sh imm12 Cn Cd
capability add (extended)  1100 0010 101 Rm option imm3 Cn Cd
capability branch (memory) 1100 0010 01 imm7 00000 Cn 0000 L
```

## Main definitions

* `AArch64.Form.check` — the checks on the arguments, in order.
* `AArch64.Form.word` — the fields of a form, put together.
* `AArch64.Form.encode` — the word of a form that passes the checks.
-/

set_option autoImplicit false

namespace AArch64

namespace Form

/-! ## Checks -/

/-- Checks that two registers have one width. -/
def checkWidths (a b : Register) : Except Fault Unit :=
  require (a.is64 = b.is64) (.mixedWidths a b)

/-- Checks the destination of an operation that reads field 31 as the stack pointer unless it sets
the flags. -/
def checkDestination (setsFlags : Bool) (rd : Register) (ifStack ifZero : Rejection) :
    Except Fault Unit :=
  if setsFlags then require (!rd.isStack) ifStack else require (!rd.isZero) ifZero

/-- Checks the transfer register of a load or store. -/
def checkTransfer (op : LoadStoreOp) (rt : Register) : Except Fault Unit := do
  require (!rt.isStack) .transferStack
  match op with
  | .ldrb | .strb | .ldrh | .strh => require (!rt.is64) .narrowTransferWidth
  | .ldrsw => require rt.is64 .signedWordWidth
  | _ => pure ()

/-- Checks the arguments of a form. The first check that fails decides. -/
def check : Form → Except Fault Unit
  | .addSubImmediate op rd rn imm12 _ => do
    require (imm12 < 4096) (.addSubImmediateRange imm12)
    require (!rn.isZero) .addSubImmediateReadsZero
    checkDestination op.setsFlags rd .flagsIntoStack .addSubImmediateWritesZero
    checkWidths rd rn
  | .addSubShifted _ rd rn rm shift amount => do
    require (shift ≠ .ror) .addSubRotates
    require (amount < rd.width) (.shiftAmount amount)
    require (!rd.isStack && !rn.isStack && !rm.isStack) .addSubShiftedStack
    checkWidths rd rn
    checkWidths rd rm
  | .addSubExtended op rd rn rm _ amount => do
    require (amount ≤ 4) (.extendAmount amount)
    require (!rn.isZero && !rm.isStack) .addSubExtendedMisuse
    checkDestination op.setsFlags rd .flagsIntoStack .addSubExtendedWritesZero
    checkWidths rd rn
  | .logicalImmediate op rd rn bitmask => do
    require (bitmask.n ≤ 1 ∧ bitmask.immr < 64 ∧ bitmask.imms < 64) .bitmaskFields
    require (rd.is64 || bitmask.n = 0) .bitmaskWidth
    require (!rn.isStack) .logicalImmediateReadsStack
    checkDestination (op = .ands) rd .andsWritesStack .logicalImmediateWritesZero
    checkWidths rd rn
  | .logicalShifted _ _ rd rn rm _ amount => do
    require (amount < rd.width) (.shiftAmount amount)
    require (!rd.isStack && !rn.isStack && !rm.isStack) .logicalShiftedStack
    checkWidths rd rn
    checkWidths rd rm
  | .moveWide _ rd imm16 hw => do
    require (imm16 < 65536) (.moveWideRange imm16)
    require (hw < rd.width / 16) (.halfwordRange hw rd)
    require (!rd.isStack) .moveWideStack
  | .bitfield _ rd rn immr imms => do
    require (immr < rd.width ∧ imms < rd.width) .bitfieldRange
    require (!rd.isStack && !rn.isStack) .bitfieldStack
    checkWidths rd rn
  | .extract rd rn rm lsb => do
    require (lsb < rd.width) (.extractRange lsb)
    require (!rd.isStack && !rn.isStack && !rm.isStack) .extractStack
    checkWidths rd rn
    checkWidths rd rm
  | .loadStoreUnsigned op rt base imm12 => do
    checkTransfer op rt
    require (imm12 < 4096) (.scaledRange imm12)
    require (!base.isZero) .zeroBase
  | .loadStoreIndexed op rt base offset mode => do
    checkTransfer op rt
    require (Immediate.isUnscaledOffset offset) (.unscaledRange offset)
    require (!base.isZero) .zeroBase
    require (mode = .unscaled ∨ rt.code ≠ base.code) .writebackOverlap
  | .loadStoreRegister op rt base index extend _ => do
    checkTransfer op rt
    require extend.isAddress .registerOffsetExtend
    require (!base.isZero && !index.isStack) .registerOffsetMisuse
  | .branchRegister _ rn => require (!rn.isStack) .branchStack
  | .capabilityAddImmediate _ cd cn imm12 _ => do
    require (cd.isCapability && cn.isCapability) .capabilityAddView
    require (imm12 < 4096) (.addSubImmediateRange imm12)
    require (!cd.isZero && !cn.isZero) .capabilityAddImmediateZero
  | .capabilityAddExtended cd cn rm _ amount => do
    require (cd.isCapability && cn.isCapability) .capabilityAddView
    require (!rm.isCapability && !rm.isStack) .capabilityOffsetView
    require (amount ≤ 4) (.extendAmount amount)
    require (!cd.isZero && !cn.isZero) .capabilityAddExtendedZero
  | .capabilityBranch cn offset _ => do
    require cn.isCapability .capabilityBranchView
    require (Immediate.isCapabilityOffset offset) (.capabilityBranchRange offset)

/-! ## Fields -/

/-- The word of a form whose arguments fit. -/
def word : Form → Word
  | .addSubImmediate op rd rn imm12 shifted =>
    rd.sf ++ op.field ++ 0b100010#6 ++ BitVec.ofBool shifted ++ BitVec.ofNat 12 imm12 ++ rn.field ++
      rd.field
  | .addSubShifted op rd rn rm shift amount =>
    rd.sf ++ op.field ++ 0b01011#5 ++ shift.field ++ 0#1 ++ rm.field ++ BitVec.ofNat 6 amount ++
      rn.field ++ rd.field
  | .addSubExtended op rd rn rm extend amount =>
    rd.sf ++ op.field ++ 0b01011#5 ++ 0b001#3 ++ rm.field ++ extend.field ++
      BitVec.ofNat 3 amount ++ rn.field ++ rd.field
  | .logicalImmediate op rd rn bitmask =>
    rd.sf ++ op.field ++ 0b100100#6 ++ BitVec.ofNat 1 bitmask.n ++ BitVec.ofNat 6 bitmask.immr ++
      BitVec.ofNat 6 bitmask.imms ++ rn.field ++ rd.field
  | .logicalShifted op invert rd rn rm shift amount =>
    rd.sf ++ op.field ++ 0b01010#5 ++ shift.field ++ BitVec.ofBool invert ++ rm.field ++
      BitVec.ofNat 6 amount ++ rn.field ++ rd.field
  | .moveWide op rd imm16 hw =>
    rd.sf ++ op.field ++ 0b100101#6 ++ BitVec.ofNat 2 hw ++ BitVec.ofNat 16 imm16 ++ rd.field
  | .bitfield op rd rn immr imms =>
    rd.sf ++ op.field ++ 0b100110#6 ++ rd.sf ++ BitVec.ofNat 6 immr ++ BitVec.ofNat 6 imms ++
      rn.field ++ rd.field
  | .extract rd rn rm lsb =>
    rd.sf ++ 0b00100111#8 ++ rd.sf ++ 0#1 ++ rm.field ++ BitVec.ofNat 6 lsb ++ rn.field ++ rd.field
  | .loadStoreUnsigned op rt base imm12 =>
    BitVec.ofNat 2 (op.sizeLog2 rt) ++ 0b111001#6 ++ op.field rt ++ BitVec.ofNat 12 imm12 ++
      base.field ++ rt.field
  | .loadStoreIndexed op rt base offset mode =>
    BitVec.ofNat 2 (op.sizeLog2 rt) ++ 0b111000#6 ++ op.field rt ++ 0#1 ++ BitVec.ofInt 9 offset ++
      mode.field ++ base.field ++ rt.field
  | .loadStoreRegister op rt base index extend scaled =>
    BitVec.ofNat 2 (op.sizeLog2 rt) ++ 0b111000#6 ++ op.field rt ++ 1#1 ++ index.field ++
      extend.field ++ BitVec.ofBool scaled ++ 0b10#2 ++ base.field ++ rt.field
  | .branchRegister op rn => 0b1101011#7 ++ op.field ++ 0b11111#5 ++ 0#6 ++ rn.field ++ 0#5
  | .capabilityAddImmediate subtract cd cn imm12 shifted =>
    0b00000010#8 ++ BitVec.ofBool subtract ++ BitVec.ofBool shifted ++ BitVec.ofNat 12 imm12 ++
      cn.field ++ cd.field
  | .capabilityAddExtended cd cn rm extend amount =>
    0b11000010101#11 ++ rm.field ++ extend.field ++ BitVec.ofNat 3 amount ++ cn.field ++ cd.field
  | .capabilityBranch cn offset link =>
    0b1100001001#10 ++ BitVec.ofInt 7 (offset / 16) ++ 0#5 ++ cn.field ++ 0#4 ++ BitVec.ofBool link

/-- The word of a form whose arguments pass the checks. -/
def encode (f : Form) : Except Fault Word := do
  f.check
  return f.word

/-- A form is encoded as its word exactly if it passes its checks. -/
theorem encode_eq_ok_iff {f : Form} {w : Word} :
    f.encode = .ok w ↔ f.check = .ok () ∧ f.word = w := by
  cases h : f.check <;> simp [encode, h, bind, Except.bind, pure, Except.pure]

end Form

end AArch64
