import AArch64.Emitter.Move

/-!
# Logical operations

Combines integers bit by bit, with the operand complemented or not. The bitmask immediate form and
the shifted register form are taken where they fit. Otherwise the operand is moved to a scratch
register first. The shifted form has no stack pointer: a source is copied to a scratch register,
and a destination gets the result from one.

## Main definitions

* `AArch64.Logical.immediateForm?`, `AArch64.Logical.registerForm?` — the direct forms.
* `AArch64.Emit.logical` — emits a logical operation.
-/

set_option autoImplicit false

namespace AArch64

namespace Logical

/-- The form that holds an immediate, complemented if `invert`. -/
def immediateForm? (op : LogicalOp) (invert : Bool) (rd rn : Register) (imm : Int) :
    Except Fault (Option Form) := do
  let some imm := Immediate.atWidth? imm rd.width | throw (.rejected (.immediateRange imm))
  let value := Immediate.toBits imm rd.width
  let value := if invert then Immediate.complement value rd.width else value
  if rn.isStack || (if op = .ands then rd.isStack else rd.isZero) then return none
  if let some bitmask ← Fault.ofTrap (Bitmask.encode value rd.width) then
    return some (.logicalImmediate op rd rn bitmask)
  return none

/-- The form that takes a register, shifted. -/
def registerForm? (op : LogicalOp) (invert : Bool) (rd rn rm : Register) (shift : Shift)
    (amount : Nat) : Option Form :=
  if rd.isStack || rn.isStack || rm.isStack || rd.width ≤ amount then none
  else some (.logicalShifted op invert rd rn rm shift amount)

/-- The form that takes an operand directly. Extended registers have none. -/
def directForm? (op : LogicalOp) (invert : Bool) (rd rn : Register) (operand : Operand) :
    Except Fault (Option Form) :=
  match operand with
  | .immediate imm => immediateForm? op invert rd rn imm
  | .register rm => .ok (registerForm? op invert rd rn rm .lsl 0)
  | .shifted rm shift amount => .ok (registerForm? op invert rd rn rm shift amount)
  | .extended _ _ _ => .ok none

end Logical

namespace Emit

/-- Copies the stack pointer to a scratch register; any other register stands for itself. -/
def outOfStack (rn : Register) : Emit Register := do
  if rn.isStack then
    let copy ← acquire rn.view
    mov copy (.register rn)
    return copy
  else return rn

/-- Combines a register with an operand that is moved to a scratch register first. -/
def logicalThroughScratch (op : LogicalOp) (invert : Bool) (rd rn : Register)
    (operand : Operand) : Emit Unit :=
  scopeFor rd (rn :: operand.register?.toList) do
    let temp ← acquire rd.view
    mov temp operand
    let rn ← outOfStack rn
    if rd.isStack then
      terminal (.logicalShifted op invert temp rn temp .lsl 0)
      mov rd (.register temp)
    else
      terminal (.logicalShifted op invert rd rn temp .lsl 0)

/-- Combines a register with an operand. -/
def logical (op : LogicalOp) (invert : Bool) (rd rn : Register) (operand : Operand) :
    Emit Unit := do
  require (!rd.isCapability && !rn.isCapability) .integerOnCapability
  require (rd.is64 = rn.is64) (.mixedWidths rd rn)
  match ← lift (Logical.directForm? op invert rd rn operand) with
  | some f => terminal f
  | none => logicalThroughScratch op invert rd rn operand

end Emit

end AArch64
