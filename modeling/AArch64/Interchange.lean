import AArch64.Instruction
import AArch64.Register.Set

/-!
# Interchange of values

Instructions, registers and operands as documents: trees of numbers, texts, lists and records.

* A value without parts is the name of its constructor as a text. When read, it may also be a
  record with that name as its one key, and nothing as content.
* A value with several constructors and parts is a record with one key, the constructor, whose
  content is the part, or a record of the parts.
* A structure is a record of its parts. When read, it may also be a list of them, in order.
* A set of registers is the number of its bits.

Records may hold further keys when they are read. Numbers have to be whole and inside the range of
their type.

## Main definitions

* `AArch64.Document` — the trees.
* `AArch64.Interchange` — the values that can be written and read.

## Main results

* `AArch64.Register.read_write` and its like — what was written is read back.
-/

set_option autoImplicit false

namespace AArch64

/-- A tree of values. Keys of a record are distinct. -/
inductive Document
  /-- Nothing. -/
  | nothing
  /-- A truth value. -/
  | flag (b : Bool)
  /-- A whole number. -/
  | whole (i : Int)
  /-- A number `digits / 10 ^ places` that is not written as a whole one. -/
  | fraction (digits : Int) (places : Nat)
  /-- A text. -/
  | text (s : String)
  /-- A list. -/
  | list (items : List Document)
  /-- A record. -/
  | record (fields : List (String × Document))
  deriving Inhabited

/-- The values that can be written to documents and read from them. -/
class Interchange (α : Type) where
  /-- The document of a value. -/
  write : α → Document
  /-- The value of a document, if it has one. -/
  read : Document → Option α

namespace Document

/-! ## Parts -/

/-- A whole number from `lo` on and below `hi`. -/
def inRange? (lo hi : Int) : Document → Option Int
  | .whole i => if lo ≤ i ∧ i < hi then some i else none
  | _ => none

/-- A whole number of `bits` bits without sign. -/
def unsigned? (bits : Nat) (d : Document) : Option Nat :=
  (d.inRange? 0 (2 ^ bits)).map Int.toNat

/-- A whole number of 64 bits with sign. -/
def signed? (d : Document) : Option Int :=
  d.inRange? (-2 ^ 63) (2 ^ 63)

/-- A number without sign. -/
def ofNat (n : Nat) : Document :=
  .whole n

/-- A number that fits its type is read back. -/
theorem unsigned?_ofNat {bits n : Nat} (h : n < 2 ^ bits) :
    (ofNat n).unsigned? bits = some n := by
  have : (n : Int) < 2 ^ bits := by exact_mod_cast h
  simp [unsigned?, ofNat, inRange?, this]

/-- The part of a record with a key. -/
def field? (fields : List (String × Document)) (key : String) : Option Document :=
  fields.lookup key

/-- The parts of a structure, from a record or from a list of as many parts. -/
def structure? (keys : List String) : Document → Option (List Document)
  | .record fields => keys.mapM (field? fields)
  | .list items => if items.length = keys.length then some items else none
  | _ => none

/-- The parts of a record. -/
def record? (keys : List String) : Document → Option (List Document)
  | .record fields => keys.mapM (field? fields)
  | _ => none

/-- The constructor and the content of a record with one key. -/
def variant? : Document → Option (String × Document)
  | .record [(name, content)] => some (name, content)
  | _ => none

/-- The name of a value without parts. -/
def name? : Document → Option String
  | .text s => some s
  | .record [(name, .nothing)] => some name
  | _ => none

/-- The value without parts whose name a document is. -/
def named? {α : Type} (values : List α) (name : α → String) (d : Document) : Option α := do
  let s ← d.name?
  values.find? (name · = s)

end Document

open Document

/-! ## Values without parts -/

/-- An instruction set is written as its name. -/
instance : Interchange Isa where
  write isa := .text isa.text.toUpper
  read := named? Isa.all (·.text.toUpper)

/-- An instruction set is read back. -/
theorem Isa.read_write (isa : Isa) : Interchange.read (Interchange.write isa) = some isa := by
  cases isa <;> decide +kernel

/-- A category is written as its name. -/
instance : Interchange Category where
  write c := .text c.name
  read := named? Category.all Category.name

/-- A category is read back. -/
theorem Category.read_write (c : Category) : Interchange.read (Interchange.write c) = some c := by
  cases c <;> rfl

namespace RegisterView

/-- Every view. -/
def all : List RegisterView :=
  [.w, .x, .c]

end RegisterView

/-- A view is written as its name. -/
instance : Interchange RegisterView where
  write v := .text v.letter.toUpper
  read := named? RegisterView.all (·.letter.toUpper)

/-- A view is read back. -/
theorem RegisterView.read_write (v : RegisterView) :
    Interchange.read (Interchange.write v) = some v := by
  cases v <;> decide +kernel

namespace Shift

/-- Every shift. -/
def all : List Shift :=
  [.lsl, .lsr, .asr, .ror]

/-- The name of a shift. -/
def name : Shift → String
  | .lsl => "Lsl"
  | .lsr => "Lsr"
  | .asr => "Asr"
  | .ror => "Ror"

end Shift

/-- A shift is written as its name. -/
instance : Interchange Shift where
  write s := .text s.name
  read := named? Shift.all Shift.name

/-- A shift is read back. -/
theorem Shift.read_write (s : Shift) : Interchange.read (Interchange.write s) = some s := by
  cases s <;> rfl

namespace Extend

/-- Every extend. -/
def all : List Extend :=
  [.uxtb, .uxth, .uxtw, .uxtx, .sxtb, .sxth, .sxtw, .sxtx]

/-- The name of an extend. -/
def name : Extend → String
  | .uxtb => "Uxtb"
  | .uxth => "Uxth"
  | .uxtw => "Uxtw"
  | .uxtx => "Uxtx"
  | .sxtb => "Sxtb"
  | .sxth => "Sxth"
  | .sxtw => "Sxtw"
  | .sxtx => "Sxtx"

end Extend

/-- An extension is written as its name. -/
instance : Interchange Extend where
  write e := .text e.name
  read := named? Extend.all Extend.name

/-- An extension is read back. -/
theorem Extend.read_write (e : Extend) : Interchange.read (Interchange.write e) = some e := by
  cases e <;> rfl

/-! ## Structures -/

/-- A register is written by its fields. -/
instance : Interchange Register where
  write r := .record [("code", ofNat r.code.toNat), ("size", Interchange.write r.view)]
  read d := do
    let [code, view] ← d.structure? ["code", "size"] | none
    return { code := BitVec.ofNat 8 (← code.unsigned? 8), view := ← Interchange.read view }

/-- A register is read back. -/
theorem Register.read_write (r : Register) :
    Interchange.read (Interchange.write r) = some r := by
  have parts : (Interchange.write r : Document).structure? ["code", "size"] =
      some [.ofNat r.code.toNat, Interchange.write r.view] := rfl
  have view : Document.named? RegisterView.all (·.letter.toUpper) (Interchange.write r.view) =
      some r.view := r.view.read_write
  simp [Interchange.read, parts, Document.unsigned?_ofNat r.code.isLt, view]

/-- A set of registers is written as the number of its bits. -/
instance : Interchange RegisterSet where
  write s := ofNat s.bits.toNat
  read d := do return { bits := BitVec.ofNat 32 (← d.unsigned? 32) }

/-- A set of registers is read back. -/
theorem RegisterSet.read_write (s : RegisterSet) :
    Interchange.read (Interchange.write s) = some s := by
  simp [Interchange.read, Interchange.write, Document.unsigned?_ofNat s.bits.isLt]

/-- An instruction is written by its fields. -/
instance : Interchange Instruction where
  write i := .record [("word", ofNat i.word.toNat), ("category", Interchange.write i.category),
    ("isa", Interchange.write i.isa), ("offset", ofNat i.offset)]
  read d := do
    let [word, category, isa, offset] ←
      d.structure? ["word", "category", "isa", "offset"] | none
    return {
      word := BitVec.ofNat 32 (← word.unsigned? 32)
      category := ← Interchange.read category
      isa := ← Interchange.read isa
      offset := ← offset.unsigned? 64 }

/-! ## Operands -/

/-- An operand is written as its kind with the fields of the kind. -/
instance : Interchange Operand where
  write
    | .immediate value => .record [("Immediate", .whole value)]
    | .register r => .record [("Register", Interchange.write r)]
    | .shifted r shift amount => .record [("Shifted", .record [("reg", Interchange.write r),
        ("shift", Interchange.write shift), ("amount", ofNat amount)])]
    | .extended r extend amount => .record [("Extended", .record [("reg", Interchange.write r),
        ("extend", Interchange.write extend), ("amount", ofNat amount)])]
  read d := do
    let (name, content) ← d.variant?
    match name with
    | "Immediate" => return .immediate (← content.signed?)
    | "Register" => return .register (← Interchange.read content)
    | "Shifted" => do
      let [r, shift, amount] ← content.record? ["reg", "shift", "amount"] | none
      return .shifted (← Interchange.read r) (← Interchange.read shift)
        (← amount.unsigned? 8)
    | "Extended" => do
      let [r, extend, amount] ← content.record? ["reg", "extend", "amount"] | none
      return .extended (← Interchange.read r) (← Interchange.read extend)
        (← amount.unsigned? 8)
    | _ => none

namespace MemOperand

/-- The document of a base and an offset. -/
def writeOffset (name : String) (base : Register) (offset : Int) : Document :=
  .record [(name, .record [("base", Interchange.write base), ("offset", .whole offset)])]

/-- The base and the offset of a document. -/
def readOffset? (content : Document) : Option (Register × Int) := do
  let [register, distance] ← content.record? ["base", "offset"] | none
  return (← Interchange.read register, ← distance.signed?)

end MemOperand

/-- A memory operand is written as its kind with the fields of the kind. -/
instance : Interchange MemOperand where
  write
    | .offset base offset => MemOperand.writeOffset "Offset" base offset
    | .preIndex base offset => MemOperand.writeOffset "PreIndex" base offset
    | .postIndex base offset => MemOperand.writeOffset "PostIndex" base offset
    | .registerOffset base index extend amount =>
      .record [("RegisterOffset", .record [("base", Interchange.write base),
        ("index", Interchange.write index), ("extend", Interchange.write extend),
        ("amount", ofNat amount)])]
  read d := do
    let (name, content) ← d.variant?
    let offsetOf (mode : Register → Int → MemOperand) : Option MemOperand :=
      (MemOperand.readOffset? content).map fun (base, offset) => mode base offset
    match name with
    | "Offset" => offsetOf .offset
    | "PreIndex" => offsetOf .preIndex
    | "PostIndex" => offsetOf .postIndex
    | "RegisterOffset" => do
      let [base, index, extend, amount] ←
        content.record? ["base", "index", "extend", "amount"] | none
      return .registerOffset (← Interchange.read base) (← Interchange.read index)
        (← Interchange.read extend) (← amount.unsigned? 8)
    | _ => none

end AArch64
