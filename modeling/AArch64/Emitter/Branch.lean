import AArch64.Emitter.Move

/-!
# Branches and capabilities

Branches to registers, which are integer registers in A64 and capabilities in C64, branches
through a capability that is stored in memory, and the addition of an offset to a capability that
these fall back to.

## Main definitions

* `AArch64.Emit.branch`, `AArch64.Emit.ret` — branches to a register.
* `AArch64.Emit.branchCapability` — branch through memory.
* `AArch64.Emit.capabilityAdd` — addition of an offset to a capability.
-/

set_option autoImplicit false

namespace AArch64

namespace Emit

/-! ## Branches to a register -/

/-- Branches to a register in the view of the instruction set. -/
def branch (op : BranchOp) (rn : Register) : Emit Unit := do
  match (← get).isa with
  | .a64 => require (rn.is64 && !rn.isCapability) .branchView
  | .c64 => require rn.isCapability .branchCapabilityView
  terminal (.branchRegister op rn)

/-- Returns to the address in the link register. -/
def ret : Emit Unit := do
  match (← get).isa with
  | .a64 => branch .ret (.link .x)
  | .c64 => branch .ret (.link .c)

/-! ## Capabilities -/

/-- Adds an offset to a capability. An offset that fits no immediate goes through a scratch
register. -/
def capabilityAdd (cd cn : Register) (offset : Int) : Emit Unit :=
  match Immediate.addSub? (if offset < 0 then -offset else offset) with
  | some (imm12, shifted) => terminal (.capabilityAddImmediate (offset < 0) cd cn imm12 shifted)
  | none =>
    scope do
      reserve [cd, cn]
      let temp ← acquire .x
      movImmediate temp offset
      terminal (.capabilityAddExtended cd cn temp .sxtx 0)

/-- Branches to the capability that is stored at an offset from a capability. An offset that does
not fit is added to a scratch capability first. -/
def branchCapability (mem : MemOperand) (link : Bool) : Emit Unit := do
  require ((← get).isa = .c64) .capabilityBranchIsa
  match mem with
  | .offset base offset =>
    require base.isCapability .capabilityBranchView
    if Immediate.isCapabilityOffset offset then terminal (.capabilityBranch base offset link)
    else
      scope do
        reserve [base]
        let temp ← acquire .c
        capabilityAdd temp base offset
        terminal (.capabilityBranch temp 0 link)
  | _ => throw (.rejected .capabilityBranchMode)

end Emit

end AArch64
