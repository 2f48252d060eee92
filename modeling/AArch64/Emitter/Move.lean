import AArch64.Emitter

/-!
# Moves

A move copies a register, shifted or extended, or materializes an immediate. Registers take one
instruction; the source is read at the width of the destination. Immediates take the first of
these that holds them:

| sequence               | immediates                                             |
|------------------------|--------------------------------------------------------|
| `movz`                 | one halfword that is not zero                          |
| `movn`                 | one halfword that is not `0xffff`                      |
| `orr` with zero        | bitmask immediates                                     |
| `movz` or `movn`, then | any; halfwords of the kind that is more frequent,      |
| `movk`                 | `0` or `0xffff`, are left out                          |

## Main definitions

* `AArch64.Move.immediateForms` — the instructions that materialize an immediate.
* `AArch64.Move.extendForm` — the one that extends and shifts a register.
* `AArch64.Emit.mov` — emits a move.
-/

set_option autoImplicit false

namespace AArch64

namespace Move

/-! ## Immediates -/

/-- The halfwords of a value as a start and replacements. Halfwords that the start fills in anyway
are left out: `0xffff` if `inverted`, else `0`. -/
def sequence (rd : Register) (halfwords : List Nat) (inverted : Bool) : List Form :=
  let skipped := if inverted then 0xffff else 0
  match halfwords.zipIdx.filter (·.1 ≠ skipped) with
  | [] => []
  | (imm16, hw) :: rest =>
    (if inverted then .moveWide .movn rd (0xffff - imm16) hw else .moveWide .movz rd imm16 hw) ::
      rest.map fun (imm16, hw) => .moveWide .movk rd imm16 hw

/-- Whether more halfwords are `0xffff` than are zero. -/
def prefersInverted (halfwords : List Nat) : Bool :=
  halfwords.count 0 < halfwords.count 0xffff

/-- The instructions that materialize an immediate in a register other than the stack pointer. -/
def immediateForms (rd : Register) (imm : Int) : Except Fault (List Form) := do
  let some imm := Immediate.atWidth? imm rd.width | throw (.rejected (.immediateRange imm))
  let value := Immediate.toBits imm rd.width
  if let some (imm16, hw) ← Fault.ofTrap (Immediate.moveWide value rd.width) then
    return [.moveWide .movz rd imm16 hw]
  let inverse := Immediate.complement value rd.width
  if let some (imm16, hw) ← Fault.ofTrap (Immediate.moveWide inverse rd.width) then
    return [.moveWide .movn rd imm16 hw]
  if let some bitmask ← Fault.ofTrap (Bitmask.encode value rd.width) then
    if !rd.isZero then return [.logicalImmediate .orr rd (.zero rd.view) bitmask]
  let halfwords ← Fault.ofTrap (Immediate.halfwords value (rd.width / 16))
  return sequence rd halfwords (prefersInverted halfwords)

/-! ## Registers -/

/-- Copies a register other than the zero register. The stack pointer is copied by an addition. -/
def registerForm (rd rm : Register) : Form :=
  let rm := rm.withView rd.view
  if rd.isStack || rm.isStack then .addSubImmediate .add rd rm 0 false
  else .logicalShifted .orr false rd (.zero rd.view) rm .lsl 0

/-- Shifts a register to the left by less than its width. -/
def leftShift (rd rn : Register) (amount : Nat) : Except Fault Form := do
  let rotation ← Fault.ofTrap (Bits.difference rd.width amount)
  let last ← Fault.ofTrap (Bits.difference (rd.width - 1) amount)
  return .bitfield .ubfm rd rn (rotation % rd.width) last

/-- Shifts a register. -/
def shiftForm (rd rn : Register) (shift : Shift) (amount : Nat) : Except Fault Form := do
  require (amount < rd.width) (.shiftAmount amount)
  require (!rn.isStack) .shiftStack
  let rn := rn.withView rd.view
  match shift with
  | .lsl => leftShift rd rn amount
  | .lsr => return .bitfield .ubfm rd rn amount (rd.width - 1)
  | .asr => return .bitfield .sbfm rd rn amount (rd.width - 1)
  | .ror => return .extract rd rn rn amount

/-- Extends the low bits of a register and shifts the result to the left. If the shift leaves no
room for the extension, or there is nothing to extend, it is a shift alone. -/
def extendForm (rd rn : Register) (extend : Extend) (amount : Nat) : Except Fault Form := do
  require (amount < rd.width) (.extendAmount amount)
  require (!rn.isStack) .extendStack
  let rn := rn.withView rd.view
  let rotation := (← Fault.ofTrap (Bits.difference rd.width amount)) % rd.width
  if extend.sourceBits = 64 ∨ (rotation ≠ 0 ∧ rotation < extend.sourceBits) then
    leftShift rd rn amount
  else
    let op := if extend.isSigned then .sbfm else .ubfm
    return .bitfield op rd rn rotation (min (extend.sourceBits - 1) (rd.width - 1))

end Move

/-! ## Emission -/

namespace Emit

/-- Emits the instructions of an immediate: one that ends the operation, or a sequence. -/
def forms : List Form → Emit Unit
  | [f] => terminal f
  | fs => fs.forM form

/-- Materializes an immediate. The stack pointer gets it through a scratch register. -/
def movImmediate (rd : Register) (imm : Int) : Emit Unit := do
  if rd.isStack then
    scope do
      let temp ← acquire rd.view
      forms (← lift (Move.immediateForms temp imm))
      terminal (.addSubImmediate .add rd temp 0 false)
  else
    forms (← lift (Move.immediateForms rd imm))

/-- Moves an operand to a register. -/
def mov (rd : Register) : Operand → Emit Unit
  | .immediate imm => movImmediate rd imm
  | .register rm =>
    if rm.isZero then movImmediate rd 0 else terminal (Move.registerForm rd rm)
  | .shifted rn shift amount => do terminal (← lift (Move.shiftForm rd rn shift amount))
  | .extended rn extend amount => do terminal (← lift (Move.extendForm rd rn extend amount))

end Emit

end AArch64
