/-!
# Unsigned integers in text

Reads an unsigned integer in a given base from the whole of a text: one `+` may come first, then
at least one digit, letters in either case. Digits are read from the left; the first character that
is no digit, or that takes the value beyond its bound, decides the answer.

## Main definitions

* `AArch64.Text.digit?` — the value of a digit.
* `AArch64.Text.readUnsigned` — the integer, or why there is none.
* `AArch64.Text.trim`, `AArch64.Text.isBlank` — blank characters around a text.
-/

set_option autoImplicit false

namespace AArch64.Text

/-! ## Blank characters -/

/-- The characters with the Unicode property `White_Space`. -/
def isBlank (c : Char) : Bool :=
  let n := c.toNat
  (9 ≤ n ∧ n ≤ 13) ∨ (0x2000 ≤ n ∧ n ≤ 0x200A) ∨
    n ∈ [0x20, 0x85, 0xA0, 0x1680, 0x2028, 0x2029, 0x202F, 0x205F, 0x3000]

/-- A text without the blank characters at its two ends. -/
def trim (cs : List Char) : List Char :=
  ((cs.dropWhile isBlank).reverse.dropWhile isBlank).reverse

/-! ## Integers -/

/-- Why a text is no unsigned integer below a bound. -/
inductive NumberFault
  /-- The text is empty. -/
  | empty
  /-- A character is no digit, or there is a sign and no digit. -/
  | invalidDigit
  /-- The value is beyond its bound. -/
  | tooLarge
  deriving DecidableEq

/-- The wording of a fault. -/
def NumberFault.message : NumberFault → String
  | .empty => "cannot parse integer from empty string"
  | .invalidDigit => "invalid digit found in string"
  | .tooLarge => "number too large to fit in target type"

/-- The value of a digit in a base of at most 36. -/
def digit? (base : Nat) (c : Char) : Option Nat :=
  let value? :=
    if '0' ≤ c ∧ c ≤ '9' then some (c.toNat - '0'.toNat)
    else if 'a' ≤ c ∧ c ≤ 'z' then some (c.toNat - 'a'.toNat + 10)
    else if 'A' ≤ c ∧ c ≤ 'Z' then some (c.toNat - 'A'.toNat + 10)
    else none
  value?.filter (· < base)

/-- Reads digits after those that gave `value`. Every value on the way stays below `bound`. -/
def readDigits (base bound : Nat) : (value : Nat) → List Char → Except NumberFault Nat
  | value, [] => .ok value
  | value, c :: cs =>
    match digit? base c with
    | none => .error .invalidDigit
    | some d =>
      if value * base + d < bound then readDigits base bound (value * base + d) cs
      else .error .tooLarge

/-- Reads an unsigned integer below `bound`. -/
def readUnsigned (base bound : Nat) : List Char → Except NumberFault Nat
  | [] => .error .empty
  | ['+'] => .error .invalidDigit
  | '+' :: cs => readDigits base bound 0 cs
  | cs => readDigits base bound 0 cs

end AArch64.Text
