/-!
# Registers

General-purpose registers in their 32-bit view `w`, their 64-bit view `x` and their capability
view `c`. Register field 31 of an instruction is the zero register or the stack pointer, depending
on the instruction; a `Register` tells them apart by its code.

| code    | meaning                                               |
|---------|-------------------------------------------------------|
| 0 .. 30 | general-purpose register                              |
| 31      | zero register `wzr`, `xzr`, `czr`                     |
| 63      | stack pointer `wsp`, `sp`, `csp`, encoded as field 31 |

Other codes name no register. They are not refused, and are encoded by their low five bits.

## Main definitions

* `AArch64.Register` — a code and a view.
* `AArch64.Register.general?`, `AArch64.Register.zero`, `AArch64.Register.stack` — the registers.
* `AArch64.Register.field`, `AArch64.Register.width`, `AArch64.Register.name` — how a register is
  encoded, read and written.
-/

set_option autoImplicit false

namespace AArch64

/-- The view of a register. -/
inductive RegisterView
  /-- The low 32 bits. -/
  | w
  /-- All 64 bits. -/
  | x
  /-- The capability; 64 bits for integer arithmetic. -/
  | c
  deriving DecidableEq

/-- The letter of a view. -/
def RegisterView.letter : RegisterView → String
  | .w => "w"
  | .x => "x"
  | .c => "c"

/-- A register in one of its views. -/
structure Register where
  /-- The number of a general-purpose register, 31 or 63. -/
  code : BitVec 8
  /-- The view. -/
  view : RegisterView
  deriving DecidableEq

namespace Register

/-- The code of the zero register. -/
def zeroCode : BitVec 8 := 31

/-- The code of the stack pointer. -/
def stackCode : BitVec 8 := 63

/-- How many general-purpose registers there are. -/
def generalCount : Nat := 31

/-! ## The registers -/

/-- General-purpose register `n`, which has to be one. -/
def general? (n : Nat) (view : RegisterView) : Option Register :=
  if n < generalCount then some { code := BitVec.ofNat 8 n, view } else none

/-- The zero register. -/
def zero (view : RegisterView) : Register :=
  { code := zeroCode, view }

/-- The stack pointer. -/
def stack (view : RegisterView) : Register :=
  { code := stackCode, view }

/-- General-purpose register 30, which holds return addresses. -/
def link (view : RegisterView) : Register :=
  { code := 30, view }

/-- The same register in another view. -/
def withView (r : Register) (view : RegisterView) : Register :=
  { r with view }

/-! ## Kinds of registers -/

/-- Whether this is the stack pointer. -/
def isStack (r : Register) : Bool :=
  r.code = stackCode

/-- Whether this is the zero register. -/
def isZero (r : Register) : Bool :=
  r.code = zeroCode

/-- Whether this is a general-purpose register. -/
def isGeneral (r : Register) : Bool :=
  r.code.toNat < generalCount

/-- The codes of general-purpose registers are those below 31. -/
theorem isGeneral_iff (r : Register) : r.isGeneral ↔ r.code.toNat < 31 :=
  decide_eq_true_iff

/-- Whether this is the capability view. -/
def isCapability (r : Register) : Bool :=
  r.view = .c

/-- Whether integer arithmetic on the register has 64 bits. -/
def is64 (r : Register) : Bool :=
  r.view ≠ .w

/-! ## Encoding and name -/

/-- The register field of an instruction. -/
def field (r : Register) : BitVec 5 :=
  r.code.setWidth 5

/-- The width of operations on the register in bits. -/
def width (r : Register) : Nat :=
  if r.is64 then 64 else 32

/-- The size bit `sf` of operations on the register. -/
def sf (r : Register) : BitVec 1 :=
  BitVec.ofBool r.is64

/-- The name of the register. The 64-bit stack pointer has no letter. -/
def name (r : Register) : String :=
  if r.isStack then (if r.view = .x then "sp" else r.view.letter ++ "sp")
  else if r.isZero then r.view.letter ++ "zr"
  else r.view.letter ++ toString r.code.toNat

end Register

end AArch64
