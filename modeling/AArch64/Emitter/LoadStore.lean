import AArch64.Emitter.AddSub

/-!
# Loads and stores

Loads and stores one integer register. Each addressing mode has forms that hold it directly and a
sequence for what they do not hold:

| mode            | direct form            | sequence                          |
|-----------------|------------------------|-----------------------------------|
| offset          | scaled, unscaled       | `add tmp, base, off`; `[tmp]`     |
| pre-index       | unscaled               | `add base, base, off`; `[base]`   |
| post-index      | unscaled               | `[base]`; `add base, base, off`   |
| register offset | shift by 0 or the size | `add tmp, base, index`; `[tmp]`   |

## Main definitions

* `AArch64.LoadStore.offsetForm?`, `AArch64.LoadStore.indexedForm?`,
  `AArch64.LoadStore.registerForm?` — the direct forms.
* `AArch64.Emit.loadStore` — emits a load or store.
-/

set_option autoImplicit false

namespace AArch64

namespace LoadStore

/-- The form that holds an offset. Scaled offsets are preferred. -/
def offsetForm? (op : LoadStoreOp) (rt base : Register) (offset : Int) :
    Except Fault (Option Form) := do
  let size := op.sizeLog2 rt
  if ← Fault.ofTrap (Immediate.isScaledOffset offset size) then
    let imm12 ← Fault.ofTrap (Bits.shiftRightSigned 64 offset size)
    return some (.loadStoreUnsigned op rt base imm12.toNat)
  if Immediate.isUnscaledOffset offset then
    return some (.loadStoreIndexed op rt base offset .unscaled)
  return none

/-- The form that changes the base by an offset. -/
def indexedForm? (op : LoadStoreOp) (rt base : Register) (offset : Int) (mode : IndexMode) :
    Option Form :=
  if Immediate.isUnscaledOffset offset then some (.loadStoreIndexed op rt base offset mode)
  else none

/-- The form that holds a register offset. The index is read in the view of its extension. -/
def registerForm? (op : LoadStoreOp) (rt base index : Register) (extend : Extend) (amount : Nat) :
    Option Form :=
  if extend.isAddress ∧ (amount = 0 ∨ amount = op.sizeLog2 rt) then
    let view := if extend = .uxtw ∨ extend = .sxtw then .w else .x
    some (.loadStoreRegister op rt base (index.withView view) extend (amount ≠ 0))
  else none

/-- A register offset as the operand of an addition. -/
def indexOperand (index : Register) (extend : Extend) (amount : Nat) : Operand :=
  if extend = .uxtx then .shifted (index.withView .x) .lsl amount
  else .extended index extend amount

end LoadStore

namespace Emit

/-- Accesses the address that is computed in a scratch register first. -/
def accessThroughScratch (op : LoadStoreOp) (rt base : Register) (reserved : List Register)
    (operand : Operand) : Emit Unit :=
  scope do
    reserve reserved
    let temp ← acquire .x
    addSub .add temp base operand
    terminal (.loadStoreUnsigned op rt temp 0)

/-- Adds an offset to the base, with the transfer register withdrawn from the pool. -/
def updateBase (rt base : Register) (offset : Int) : Emit Unit :=
  scope do
    reserve [rt]
    addSub .add base base (.immediate offset)

/-- Loads or stores a register. -/
def loadStore (op : LoadStoreOp) (rt : Register) (mem : MemOperand) : Emit Unit := do
  require mem.base.is64 .baseWidth
  require (!mem.writesBack || rt.code ≠ mem.base.code) .writebackOverlap
  match mem with
  | .offset base offset =>
    match ← lift (LoadStore.offsetForm? op rt base offset) with
    | some f => terminal f
    | none => accessThroughScratch op rt base [base, rt] (.immediate offset)
  | .preIndex base offset =>
    match LoadStore.indexedForm? op rt base offset .preIndex with
    | some f => terminal f
    | none =>
      updateBase rt base offset
      terminal (.loadStoreUnsigned op rt base 0)
  | .postIndex base offset =>
    match LoadStore.indexedForm? op rt base offset .postIndex with
    | some f => terminal f
    | none =>
      terminal (.loadStoreUnsigned op rt base 0)
      updateBase rt base offset
  | .registerOffset base index extend amount =>
    match LoadStore.registerForm? op rt base index extend amount with
    | some f => terminal f
    | none =>
      accessThroughScratch op rt base [base, index, rt] (LoadStore.indexOperand index extend amount)

end Emit

end AArch64
