import AArch64.Bits

/-!
# Digits

Numbers in hexadecimal and binary notation, as listings and messages show them: lowercase digits,
no separators, filled up with zeros on the left to a least width.

## Main definitions

* `AArch64.Text.hex` — hexadecimal digits, at least `width` of them.
* `AArch64.Text.prefixedHex`, `AArch64.Text.prefixedBinary` — with `0x` and `0b` in front.
-/

set_option autoImplicit false

namespace AArch64.Text

/-- The hexadecimal digits of `n`, filled up with zeros to at least `width` digits. -/
def hex (width n : Nat) : String :=
  let digits := Nat.toDigits 16 n
  String.ofList (List.replicate (width - digits.length) '0' ++ digits)

/-- `n` in hexadecimal notation after `0x`. -/
def prefixedHex (n : Nat) : String :=
  "0x" ++ hex 1 n

/-- `n` in binary notation after `0b`. -/
def prefixedBinary (n : Nat) : String :=
  "0b" ++ String.ofList (Nat.toDigits 2 n)

/-- A number in its 64-bit two's complement form, in hexadecimal notation after `0x`. -/
def twosComplementHex (i : Int) : String :=
  prefixedHex (i % 2 ^ 64).toNat

/-- Bytes in two hexadecimal digits each, one after another. -/
def bytes (bs : List (BitVec 8)) : String :=
  String.join (bs.map fun b => hex 2 b.toNat)

end AArch64.Text
