import AArch64.Emitter.Move

/-!
# Addition and subtraction

Adds and subtracts integers. The first form that fits is taken:

1. the immediate form;
2. the immediate form of the dual operation, for the negative of the immediate;
3. a register form: shifted, or extended where the stack pointer is involved;
4. the register form of a scratch register that the operand is moved to first.

The destination can be that scratch register unless it is also a source.

## Main definitions

* `AArch64.AddSub.immediateForm?`, `AArch64.AddSub.registerForm?` — the direct forms.
* `AArch64.Emit.addSub` — emits an addition or subtraction.
-/

set_option autoImplicit false

namespace AArch64

namespace AddSub

/-- Whether field 31 means the registers that are given, in the forms that read it as the stack
pointer: always for the source, and for the destination unless flags are set. -/
def allowsStack (op : AddSubOp) (rd rn : Register) : Bool :=
  !rn.isZero && (op.setsFlags || !rd.isZero)

/-- The form that holds an immediate, or its negative. The most negative value of the width has no
negative. -/
def immediateForm? (op : AddSubOp) (rd rn : Register) (imm : Int) :
    Except Fault (Option Form) := do
  let some imm := Immediate.atWidth? imm rd.width | throw (.rejected (.immediateRange imm))
  if !allowsStack op rd rn then return none
  if let some (imm12, shifted) := Immediate.addSub? imm then
    return some (.addSubImmediate op rd rn imm12 shifted)
  if imm = Immediate.mostNegative rd.width then return none
  if let some (imm12, shifted) := Immediate.addSub? (← Fault.ofTrap (Immediate.negate imm)) then
    return some (.addSubImmediate op.dual rd rn imm12 shifted)
  return none

/-- The form that adds or subtracts a register, shifted. With the stack pointer it is an extended
form, which shifts to the left by at most 4. -/
def shiftedForm? (op : AddSubOp) (rd rn rm : Register) (shift : Shift) (amount : Nat) :
    Option Form :=
  if rm.isStack then none
  else if rd.isStack || rn.isStack then
    if allowsStack op rd rn && shift = .lsl && amount ≤ 4 then
      some (.addSubExtended op rd rn rm (if rd.is64 then .uxtx else .uxtw) amount)
    else none
  else if shift ≠ .ror ∧ amount < rd.width then some (.addSubShifted op rd rn rm shift amount)
  else none

/-- The form that adds or subtracts an operand in a register. -/
def registerForm? (op : AddSubOp) (rd rn : Register) : Operand → Option Form
  | .immediate _ => none
  | .register rm => shiftedForm? op rd rn rm .lsl 0
  | .shifted rm shift amount => shiftedForm? op rd rn rm shift amount
  | .extended rm extend amount =>
    if allowsStack op rd rn && amount ≤ 4 && !rm.isStack then
      some (.addSubExtended op rd rn rm extend amount)
    else none

/-- The form that takes an operand directly. -/
def directForm? (op : AddSubOp) (rd rn : Register) (operand : Operand) :
    Except Fault (Option Form) :=
  match operand with
  | .immediate imm => immediateForm? op rd rn imm
  | operand => .ok (registerForm? op rd rn operand)

end AddSub

namespace Emit

/-- Adds or subtracts an operand that is moved to a scratch register first. -/
def addSubThroughScratch (op : AddSubOp) (rd rn : Register) (operand : Operand) : Emit Unit :=
  scopeFor rd (rn :: operand.register?.toList) do
    let temp ← acquire rd.view
    mov temp operand
    match AddSub.registerForm? op rd rn (.register temp) with
    | some f => terminal f
    | none => throw (.rejected (.noAddSubForm rd rn))

/-- Adds an operand to a register, or subtracts it. -/
def addSub (op : AddSubOp) (rd rn : Register) (operand : Operand) : Emit Unit := do
  require (!rd.isCapability && !rn.isCapability) .integerOnCapability
  require (!(op.setsFlags && rd.isStack)) .flagsIntoStack
  require (rd.is64 = rn.is64) (.mixedWidths rd rn)
  match ← lift (AddSub.directForm? op rd rn operand) with
  | some f => terminal f
  | none => addSubThroughScratch op rd rn operand

end Emit

end AArch64
