import AArch64.Category
import AArch64.Bits
import AArch64.Text.Number

/-!
# Values on the command line

The texts of the values that the command line takes: numbers, instruction words, instruction sets
and switches between them, and the names of categories. Underscores may separate digits.

## Main definitions

* `AArch64.Value.number` — a 64-bit number, decimal, or hexadecimal after `0x`.
* `AArch64.Value.word` — an instruction word, hexadecimal with or without `0x`.
* `AArch64.Value.switch` — a byte offset and an instruction set, as `OFFSET=ISA`.
* `AArch64.Value.isa`, `AArch64.Value.category` — by name.
* `AArch64.ValueFault` — why a text is no such value.
-/

set_option autoImplicit false

namespace AArch64

/-- Why a text is not the value that it should be. -/
inductive ValueFault
  /-- The text, as far as it is one, is no number. -/
  | number (text : String) (fault : Text.NumberFault)
  /-- There is no `=` between an offset and an instruction set. -/
  | switch (text : String)
  /-- No instruction set has this text. -/
  | unknownIsa (text : String)
  /-- No category has this name. -/
  | unknownCategory (text : String)
  deriving DecidableEq

/-- The wording of a fault. -/
def ValueFault.message : ValueFault → String
  | .number text fault => s!"`{text}`: {fault.message}"
  | .switch text => s!"`{text}`: expected OFFSET=ISA"
  | .unknownIsa text => s!"unknown instruction set `{text}` (expected a64 or c64)"
  | .unknownCategory text => s!"unknown category `{text}`"

namespace Value

/-- What follows a leading `0x` or `0X`, if a text has one. -/
def afterHexMark? : List Char → Option (List Char)
  | '0' :: 'x' :: cs => some cs
  | '0' :: 'X' :: cs => some cs
  | _ => none

/-- A text without its underscores. -/
def withoutSeparators (cs : List Char) : List Char :=
  cs.filter (· ≠ '_')

/-- Reads a 64-bit number. Blank ends and underscores go first, so `0_x10` is hexadecimal. -/
def number (text : String) : Except ValueFault Nat :=
  let cs := withoutSeparators (Text.trim text.toList)
  let value :=
    match afterHexMark? cs with
    | some digits => Text.readUnsigned 16 (2 ^ 64) digits
    | none => Text.readUnsigned 10 (2 ^ 64) cs
  value.mapError (.number (String.ofList cs))

/-- Reads an instruction word. Blank ends go first, then the mark `0x`, then underscores, so the
mark has to stand together. -/
def word (text : String) : Except ValueFault Word :=
  let cs := Text.trim text.toList
  let digits := withoutSeparators ((afterHexMark? cs).getD cs)
  match Text.readUnsigned 16 (2 ^ 32) digits with
  | .ok n => .ok (BitVec.ofNat 32 n)
  | .error fault => .error (.number (String.ofList cs) fault)

/-- Reads an instruction set. -/
def isa (text : String) : Except ValueFault Isa :=
  match Isa.ofText? text with
  | some isa => .ok isa
  | none => .error (.unknownIsa text)

/-- Reads the name of a category. -/
def category (text : String) : Except ValueFault Category :=
  match Category.ofName? text with
  | some c => .ok c
  | none => .error (.unknownCategory text)

/-- Splits a text at its first `=`. -/
def splitAtEquals? (cs : List Char) : Option (List Char × List Char) :=
  match cs.span (· ≠ '=') with
  | (before, _ :: after) => some (before, after)
  | (_, []) => none

/-- Reads a switch: an offset in bytes, `=` and the instruction set from there on. -/
def switch (text : String) : Except ValueFault (Nat × Isa) :=
  match splitAtEquals? text.toList with
  | none => .error (.switch text)
  | some (offset, name) => do
    let offset ← number (String.ofList offset)
    let isa ← isa (String.ofList name)
    return (offset, isa)

end Value

end AArch64
