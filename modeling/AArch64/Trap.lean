/-!
# Traps

Fixed-width arithmetic has operations without an answer: a sum that leaves the type, a shift
by the width of the type or more, a field that is not part of the word. Such an operation
stops with a `Trap` and every function that can reach one answers in `Except Trap`.

## Main definitions

* `AArch64.Trap` — the two causes.
* `AArch64.Trap.demand` — goes on only if a precondition holds.
-/

set_option autoImplicit false

namespace AArch64

/-- Why a fixed-width operation has no answer. -/
inductive Trap
  /-- The result, or the amount of a shift, does not fit the type. -/
  | overflow
  /-- A precondition of the operation does not hold. -/
  | assertion
  deriving DecidableEq

/-- Stops with `.assertion` unless the precondition holds. -/
def Trap.demand (holds : Bool) : Except Trap Unit :=
  if holds then .ok () else .error .assertion

/-- Stops with `.overflow` unless the result fits. -/
def Trap.fits (holds : Bool) : Except Trap Unit :=
  if holds then .ok () else .error .overflow

end AArch64
