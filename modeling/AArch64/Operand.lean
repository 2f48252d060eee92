import AArch64.Register

/-!
# Operands

What operations take besides plain registers: shifted and extended registers, immediates, and the
addressing modes of loads and stores.

## Main definitions

* `AArch64.Shift`, `AArch64.Extend` — with the fields that select them.
* `AArch64.Operand` — the last operand of an arithmetic operation or a move.
* `AArch64.MemOperand` — an addressing mode.
-/

set_option autoImplicit false

namespace AArch64

/-! ## Shifts and extends -/

/-- How a register is shifted. -/
inductive Shift
  /-- To the left. -/
  | lsl
  /-- To the right, filling with zeros. -/
  | lsr
  /-- To the right, filling with the sign. -/
  | asr
  /-- To the right, filling with what falls out. -/
  | ror
  deriving DecidableEq

namespace Shift

/-- The shift that a field selects. -/
def ofField (field : BitVec 2) : Shift :=
  match field.toNat with
  | 0 => .lsl
  | 1 => .lsr
  | 2 => .asr
  | _ => .ror

/-- The field that selects a shift. -/
def field : Shift → BitVec 2
  | .lsl => 0
  | .lsr => 1
  | .asr => 2
  | .ror => 3

/-- The field of the shift that a field selects is the field. -/
theorem field_ofField (f : BitVec 2) : (ofField f).field = f := by
  revert f; decide

/-- The field of a shift selects the shift. -/
theorem ofField_field (s : Shift) : ofField s.field = s := by
  cases s <;> rfl

end Shift

/-- How the low bits of a register are extended. -/
inductive Extend
  /-- A byte, with zeros. -/
  | uxtb
  /-- A halfword, with zeros. -/
  | uxth
  /-- A word, with zeros. -/
  | uxtw
  /-- A doubleword, as it is. -/
  | uxtx
  /-- A byte, with its sign. -/
  | sxtb
  /-- A halfword, with its sign. -/
  | sxth
  /-- A word, with its sign. -/
  | sxtw
  /-- A doubleword, as it is. -/
  | sxtx
  deriving DecidableEq

namespace Extend

/-- The extend that a field selects. -/
def ofField (field : BitVec 3) : Extend :=
  match field.toNat with
  | 0 => .uxtb
  | 1 => .uxth
  | 2 => .uxtw
  | 3 => .uxtx
  | 4 => .sxtb
  | 5 => .sxth
  | 6 => .sxtw
  | _ => .sxtx

/-- The field that selects an extend. -/
def field : Extend → BitVec 3
  | .uxtb => 0
  | .uxth => 1
  | .uxtw => 2
  | .uxtx => 3
  | .sxtb => 4
  | .sxth => 5
  | .sxtw => 6
  | .sxtx => 7

/-- The field of the extension that a field selects is the field. -/
theorem field_ofField (f : BitVec 3) : (ofField f).field = f := by
  revert f; decide

/-- The field of an extension selects the extension. -/
theorem ofField_field (e : Extend) : ofField e.field = e := by
  cases e <;> rfl

/-- Whether the sign is kept. -/
def isSigned (e : Extend) : Bool :=
  e = .sxtb ∨ e = .sxth ∨ e = .sxtw ∨ e = .sxtx

/-- How many low bits of the source are kept. -/
def sourceBits : Extend → Nat
  | .uxtb | .sxtb => 8
  | .uxth | .sxth => 16
  | .uxtw | .sxtw => 32
  | .uxtx | .sxtx => 64

/-- Whether a word or a doubleword is kept, which is what addressing modes allow. -/
def isAddress (e : Extend) : Bool :=
  e = .uxtw ∨ e = .uxtx ∨ e = .sxtw ∨ e = .sxtx

end Extend

/-! ## Operands -/

/-- The last operand of an arithmetic operation or a move. -/
inductive Operand
  /-- A value. -/
  | immediate (value : Int)
  /-- A register as it is. -/
  | register (r : Register)
  /-- A register, shifted. -/
  | shifted (r : Register) (shift : Shift) (amount : Nat)
  /-- The low bits of a register, extended and then shifted to the left. -/
  | extended (r : Register) (extend : Extend) (amount : Nat)
  deriving DecidableEq

namespace Operand

/-- The register that is read. -/
def register? : Operand → Option Register
  | .immediate _ => none
  | .register r | .shifted r _ _ | .extended r _ _ => some r

/-- The value of an immediate. -/
def immediate? : Operand → Option Int
  | .immediate value => some value
  | _ => none

/-- Whether this is a register as it is, or one shifted to the left by nothing. -/
def isPlainRegister : Operand → Bool
  | .register _ | .shifted _ .lsl 0 => true
  | _ => false

end Operand

/-- An addressing mode. -/
inductive MemOperand
  /-- The address is the base plus an offset. -/
  | offset (base : Register) (offset : Int)
  /-- The base is changed by an offset and is then the address. -/
  | preIndex (base : Register) (offset : Int)
  /-- The base is the address and is then changed by an offset. -/
  | postIndex (base : Register) (offset : Int)
  /-- The address is the base plus an index register, extended and then shifted. -/
  | registerOffset (base index : Register) (extend : Extend) (amount : Nat)
  deriving DecidableEq

namespace MemOperand

/-- The base alone. -/
def ofBase (base : Register) : MemOperand :=
  .offset base 0

/-- The base plus an index register, shifted to the left. -/
def scaled (base index : Register) (amount : Nat) : MemOperand :=
  .registerOffset base index .uxtx amount

/-- The base register. -/
def base : MemOperand → Register
  | .offset base _ | .preIndex base _ | .postIndex base _ | .registerOffset base _ _ _ => base

/-- Whether the base is changed. -/
def writesBack : MemOperand → Bool
  | .preIndex _ _ | .postIndex _ _ => true
  | _ => false

end MemOperand

end AArch64
