import AArch64.Form
import AArch64.EncodingIndex
import AArch64.Instruction
import AArch64.Proofs.Fields
import Mathlib.Logic.Function.Basic

/-!
# A machine that executes words

What the words of integer forms do: the registers, the flags and the memory of a machine before and
after an instruction. Values have the width of the operation, and a narrow result is written with
zeros above it. Memory is a map of bytes, and its addresses wrap around.

| class                  | result                                                         |
|------------------------|----------------------------------------------------------------|
| add and subtract       | the first source and the second one, or its complement with a  |
|                        | carry                                                          |
| logical                | bit by bit; `ands` clears the carry and the overflow           |
| move wide              | a halfword in its place, among zeros, ones or the old bits     |
| bitfield move          | a field at bit `immr` moved to bit 0 if `immr ≤ imms`, or one  |
|                        | at bit 0 moved to bit `width - immr`                           |
| extract                | a pair of registers, from a bit on                             |
| load and store         | the bytes at an address, the lowest one first                  |

Fields are read by the views of `AArch64.Instruction`. Branches and capability instructions are not
executed.

## Main definitions

* `AArch64.Machine` — the state, with `AArch64.Machine.read` and `AArch64.Machine.write`.
* `AArch64.Machine.AgreesBut` — two states that differ in some registers at most.
* `AArch64.Machine.Leaves` — the state that an operation leaves.
* `AArch64.addWithCarry` — the sum of two values and a carry, with the flags.
* `AArch64.Shift.apply`, `AArch64.Extend.apply`, `AArch64.MoveWideOp.apply`,
  `AArch64.BitfieldOp.apply` — what becomes of a register.
* `AArch64.Instruction.execute` — what an instruction does.
* `AArch64.Machine.step`, `AArch64.Machine.run` — the execution of words of the base instruction
  set.

## Main results

* `AArch64.Machine.read_write_self`, `AArch64.Machine.read_write_of_ne` — a register after a write.
* `AArch64.Memory.load_store` — memory after a store.
-/

set_option autoImplicit false

namespace AArch64

/-! ## Arithmetic -/

/-- The condition flags. -/
structure Flags where
  /-- The sign of the result. -/
  negative : Bool
  /-- Whether the result is zero. -/
  zero : Bool
  /-- The carry of an addition; a subtraction without borrow sets it. -/
  carry : Bool
  /-- Whether the result with its sign does not fit. -/
  overflow : Bool
  deriving DecidableEq, Inhabited

/-- The sum of two values and a carry, and the flags that it sets. -/
def addWithCarry {w : Nat} (x y : BitVec w) (carry : Bool) : BitVec w × Flags :=
  let unsigned : Nat := x.toNat + y.toNat + carry.toNat
  let signed : Int := x.toInt + y.toInt + carry.toNat
  let sum := BitVec.ofNat w unsigned
  (sum, { negative := sum.msb, zero := sum = 0#w, carry := sum.toNat ≠ unsigned
          overflow := sum.toInt ≠ signed })

/-- The result of an addition or subtraction. The second source is complemented to subtract it. -/
def AddSubOp.apply {w : Nat} (op : AddSubOp) (x y : BitVec w) : BitVec w × Flags :=
  if op.isSub then addWithCarry x (~~~y) true else addWithCarry x y false

/-- The result of a logical operation. -/
def LogicalOp.apply {w : Nat} (op : LogicalOp) (x y : BitVec w) : BitVec w × Flags :=
  let result := match op with
    | .and | .ands => x &&& y
    | .orr => x ||| y
    | .eor => x ^^^ y
  (result, { negative := result.msb, zero := result = 0#w, carry := false, overflow := false })

/-- A shifted value. -/
def Shift.apply {w : Nat} (shift : Shift) (x : BitVec w) (amount : Nat) : BitVec w :=
  match shift with
  | .lsl => x <<< amount
  | .lsr => x >>> amount
  | .asr => x.sshiftRight amount
  | .ror => x.rotateRight amount

/-- The low bits of a register, extended to a width. -/
def Extend.apply (extend : Extend) (w : Nat) (x : BitVec 64) : BitVec w :=
  if extend.isSigned then (x.setWidth extend.sourceBits).signExtend w
  else (x.setWidth extend.sourceBits).setWidth w

/-- What a move wide makes of a value: the halfword `imm16` is at bit `shift`. -/
def MoveWideOp.apply {w : Nat} (op : MoveWideOp) (old : BitVec w) (imm16 shift : Nat) : BitVec w :=
  let halfword := BitVec.ofNat w imm16 <<< shift
  match op with
  | .movn => ~~~halfword
  | .movz => halfword
  | .movk => old &&& ~~~(BitVec.ofNat w 0xffff <<< shift) ||| halfword

/-- What a bitfield move makes of a value, for the fields `immr` and `imms`. -/
def BitfieldOp.apply {w : Nat} (op : BitfieldOp) (old source : BitVec w) (immr imms : Nat) :
    BitVec w :=
  let start := if immr ≤ imms then immr else 0
  let length := if immr ≤ imms then imms - immr + 1 else imms + 1
  let position := if immr ≤ imms then 0 else w - immr
  let field := source.extractLsb' start length
  match op with
  | .sbfm => field.signExtend w <<< position
  | .ubfm => field.setWidth w <<< position
  | .bfm =>
    let mask := (BitVec.allOnes length).setWidth w <<< position
    old &&& ~~~mask ||| field.setWidth w <<< position

/-! ## The machine -/

/-- A memory: the byte at every address. -/
abbrev Memory := BitVec 64 → BitVec 8

namespace Memory

/-- The value of `n` bytes from an address on, the lowest byte first. -/
def load (memory : Memory) (address : BitVec 64) : (n : Nat) → BitVec (8 * n)
  | 0 => 0#0
  | n + 1 => memory.load (address + 1) n ++ memory address

/-- The memory after `n` bytes of a value were put at an address. -/
def store (memory : Memory) (address : BitVec 64) (n : Nat) (value : BitVec (8 * n)) : Memory :=
  fun a =>
    let i := (a - address).toNat
    if i < n then value.extractLsb' (8 * i) 8 else memory a

/-- The bits of what is loaded are those of the bytes. -/
theorem getLsbD_load (memory : Memory) (address : BitVec 64) (n j : Nat) :
    (memory.load address n).getLsbD j =
      (decide (j < 8 * n) && (memory (address + BitVec.ofNat 64 (j / 8))).getLsbD (j % 8)) := by
  induction n generalizing address j with
  | zero => simp [load]
  | succ n ih =>
    rw [load, BitVec.getLsbD_append]
    by_cases low : j < 8
    · rw [if_pos low, Nat.div_eq_of_lt low, Nat.mod_eq_of_lt low,
        decide_eq_true (show j < 8 * (n + 1) by omega), Bool.true_and]
      exact congrArg (fun a => (memory a).getLsbD j) (BitVec.add_zero address).symm
    · have byte : j / 8 = (j - 8) / 8 + 1 := by omega
      have next : address + 1 + BitVec.ofNat 64 ((j - 8) / 8) =
          address + BitVec.ofNat 64 (j / 8) := by
        rw [byte, BitVec.ofNat_add, BitVec.add_assoc, BitVec.add_comm 1]
        rfl
      rw [if_neg low, ih, next, show (j - 8) % 8 = j % 8 by omega]
      congr 1
      exact decide_eq_decide.2 (by omega)

/-- What was stored is loaded. -/
theorem load_store (memory : Memory) (address : BitVec 64) {n : Nat} (hn : n ≤ 2 ^ 64)
    (value : BitVec (8 * n)) : (memory.store address n value).load address n = value := by
  refine BitVec.eq_of_getLsbD_eq fun j hj => ?_
  have byte : (address + BitVec.ofNat 64 (j / 8) - address).toNat = j / 8 := by
    rw [BitVec.add_comm, BitVec.add_sub_cancel, BitVec.toNat_ofNat, Nat.mod_eq_of_lt (by omega)]
  rw [getLsbD_load, decide_eq_true hj, Bool.true_and]
  simp only [store, byte]
  rw [if_pos (by omega), BitVec.getLsbD_extractLsb', decide_eq_true (Nat.mod_lt j (by decide)),
    Bool.true_and, Nat.div_add_mod]

end Memory

/-- An access to memory. -/
structure Access where
  /-- Whether it is a load. -/
  isLoad : Bool
  /-- The address of the first byte. -/
  address : BitVec 64
  /-- How many bytes are accessed. -/
  size : Nat
  deriving DecidableEq

/-- The state of a machine, with the accesses to memory so far. -/
structure Machine where
  /-- The general-purpose registers. -/
  general : Fin 31 → BitVec 64
  /-- The stack pointer. -/
  stack : BitVec 64
  /-- The flags. -/
  flags : Flags
  /-- The memory. -/
  memory : Memory
  /-- The accesses to memory, the latest one last. -/
  accesses : List Access
  deriving Inhabited

namespace Machine

/-- What a register holds, in all its bits. The zero register holds zero. -/
def read (m : Machine) (r : Register) : BitVec 64 :=
  if h : r.code.toNat < 31 then m.general ⟨r.code.toNat, h⟩
  else if r.isStack then m.stack else 0

/-- Writes a register. The zero register stays what it is. -/
def write (m : Machine) (r : Register) (value : BitVec 64) : Machine :=
  if h : r.code.toNat < 31 then
    { m with general := Function.update m.general ⟨r.code.toNat, h⟩ value }
  else if r.isStack then { m with stack := value } else m

/-- What a register holds at a width. -/
def readAt (m : Machine) (w : Nat) (r : Register) : BitVec w :=
  (m.read r).setWidth w

/-- Writes a value of some width, with zeros above it. -/
def writeAt {w : Nat} (m : Machine) (r : Register) (value : BitVec w) : Machine :=
  m.write r (value.setWidth 64)

/-- Writes a result, and the flags if they are set. -/
def writeResult {w : Nat} (m : Machine) (setsFlags : Bool) (r : Register)
    (result : BitVec w × Flags) : Machine :=
  { m.writeAt r result.1 with flags := if setsFlags then result.2 else m.flags }

/-- Loads `n` bytes into a register, extended. -/
def load (m : Machine) (r : Register) (address : BitVec 64) (n : Nat)
    (extended : BitVec (8 * n) → BitVec 64) : Machine :=
  { m.write r (extended (m.memory.load address n)) with
    accesses := m.accesses ++ [{ isLoad := true, address, size := n }] }

/-- Stores `n` bytes of a register. -/
def store (m : Machine) (r : Register) (address : BitVec 64) (n : Nat) : Machine :=
  { m with
    memory := m.memory.store address n (m.readAt (8 * n) r)
    accesses := m.accesses ++ [{ isLoad := false, address, size := n }] }

/-! ### Registers after a write -/

variable {m : Machine} {q r : Register} {value : BitVec 64}

/-- Only the code of a register matters. -/
theorem read_congr (m : Machine) (h : q.code = r.code) : m.read q = m.read r := by
  obtain ⟨code, view⟩ := q
  cases h
  rfl

/-- A register is written under all of its names. -/
theorem write_congr (m : Machine) (h : q.code = r.code) (value : BitVec 64) :
    m.write q value = m.write r value := by
  obtain ⟨code, view⟩ := q
  cases h
  rfl

/-- Reading at a width does not depend on the name. -/
theorem readAt_congr (m : Machine) (w : Nat) (h : q.code = r.code) : m.readAt w q = m.readAt w r :=
  congrArg (BitVec.setWidth w) (m.read_congr h)

/-- Nor does writing at a width. -/
theorem writeAt_congr {w : Nat} (m : Machine) (h : q.code = r.code) (value : BitVec w) :
    m.writeAt q value = m.writeAt r value :=
  m.write_congr h _

/-- Nor does writing a result. -/
theorem writeResult_congr {w : Nat} (m : Machine) (setsFlags : Bool) (h : q.code = r.code)
    (result : BitVec w × Flags) :
    m.writeResult setsFlags q result = m.writeResult setsFlags r result := by
  rw [writeResult, writeAt_congr m h, writeResult]

/-- Nor does a load. -/
theorem load_congr (m : Machine) (h : q.code = r.code) (address : BitVec 64) (n : Nat)
    (extended : BitVec (8 * n) → BitVec 64) :
    m.load q address n extended = m.load r address n extended := by
  rw [load, m.write_congr h, load]

/-- Nor does a store. -/
theorem store_congr (m : Machine) (h : q.code = r.code) (address : BitVec 64) (n : Nat) :
    m.store q address n = m.store r address n := by
  rw [store, m.readAt_congr _ h, store]

/-- The zero register is read as 0. -/
theorem read_of_isZero (h : r.isZero) : m.read r = 0 := by
  have code : r.code = Register.zeroCode := of_decide_eq_true h
  simp [read, Register.isStack, code, Register.zeroCode, Register.stackCode]

/-- A write to the zero register changes nothing. -/
theorem write_of_isZero (h : r.isZero) : m.write r value = m := by
  have code : r.code = Register.zeroCode := of_decide_eq_true h
  simp [write, Register.isStack, code, Register.zeroCode, Register.stackCode]

/-- A register other than the zero register holds what was written. -/
theorem read_write_self (hr : r.IsBuilt) (hzero : r.isZero = false) :
    (m.write r value).read r = value := by
  rcases hr.code_cases with general | zero | stack
  · have lt := r.isGeneral_iff.1 general
    simp [read, write, lt]
  · rw [hzero] at zero
    cases zero
  · have code : r.code = Register.stackCode := of_decide_eq_true stack
    simp [read, write, Register.isStack, code, Register.stackCode]

/-- The other registers hold what they held. -/
theorem read_write_of_ne (h : q.code ≠ r.code) : (m.write r value).read q = m.read q := by
  have number : q.code.toNat ≠ r.code.toNat := fun eq => h (BitVec.eq_of_toNat_eq eq)
  have stack : r.isStack → q.isStack = false := fun hr =>
    decide_eq_false fun hq => h (hq.trans (of_decide_eq_true hr).symm)
  unfold write
  split
  · simp only [read]
    split
    · rw [Function.update_of_ne (by simpa [Fin.ext_iff] using number)]
    · rfl
  · split
    · next hr => simp only [read, stack hr, Bool.false_eq_true, if_false]
    · rfl

/-- A second write of a register undoes the first one. -/
theorem write_write (m : Machine) (r : Register) (x y : BitVec 64) :
    (m.write r x).write r y = m.write r y := by
  simp only [write]
  split
  · simp
  · split <;> rfl

/-- A write to a register leaves the flags. -/
@[simp]
theorem flags_write : (m.write r value).flags = m.flags := by
  unfold write
  split
  · rfl
  · split <;> rfl

/-- A write to a register leaves the memory. -/
@[simp]
theorem memory_write : (m.write r value).memory = m.memory := by
  unfold write
  split
  · rfl
  · split <;> rfl

/-- A write to a register is no access. -/
@[simp]
theorem accesses_write : (m.write r value).accesses = m.accesses := by
  unfold write
  split
  · rfl
  · split <;> rfl

/-- A write does not depend on the flags. -/
theorem write_with_flags (m : Machine) (flags : Flags) (r : Register) (value : BitVec 64) :
    { m with flags }.write r value = { m.write r value with flags } := by
  unfold write
  split
  · rfl
  · split <;> rfl

/-! ### Values of a width -/

section Width

variable {w : Nat}

/-- The zero register is read as 0 at each width. -/
theorem readAt_of_isZero (h : r.isZero) : m.readAt w r = 0#w := by
  rw [readAt, read_of_isZero h]
  exact BitVec.setWidth_zero w 64

/-- A write to the zero register changes nothing at each width. -/
theorem writeAt_of_isZero (h : r.isZero) (x : BitVec w) : m.writeAt r x = m :=
  write_of_isZero h

/-- A value is read as it was written. -/
theorem readAt_writeAt_self (hr : r.IsBuilt) (hzero : r.isZero = false) (hw : w ≤ 64)
    (x : BitVec w) : (m.writeAt r x).readAt w r = x := by
  rw [readAt, writeAt, read_write_self hr hzero, BitVec.setWidth_setWidth_of_le x hw,
    BitVec.setWidth_eq]

/-- A write to a register leaves the other ones, at each width. -/
theorem readAt_writeAt_of_ne {v : Nat} (h : q.code ≠ r.code) (x : BitVec v) :
    (m.writeAt r x).readAt w q = m.readAt w q :=
  congrArg (BitVec.setWidth w) (read_write_of_ne h)

/-- The last write counts. -/
theorem writeAt_writeAt {v : Nat} (m : Machine) (r : Register) (x : BitVec v) (y : BitVec w) :
    (m.writeAt r x).writeAt r y = m.writeAt r y :=
  m.write_write r _ _

/-- A result without flags is written as its value. -/
theorem writeResult_false (m : Machine) (r : Register) (result : BitVec w × Flags) :
    m.writeResult false r result = m.writeAt r result.1 := by
  have kept : (m.writeAt r result.1).flags = m.flags := flags_write
  rw [writeResult, if_neg Bool.false_ne_true, ← kept]

/-- A result that is written to two registers, with the flags that it sets. -/
theorem writeAt_writeResult (m : Machine) (setsFlags : Bool) (q r : Register)
    (result : BitVec w × Flags) : (m.writeResult setsFlags q result).writeAt r result.1 =
      (m.writeAt q result.1).writeResult setsFlags r result := by
  have kept : (m.writeAt q result.1).flags = m.flags := flags_write
  rw [writeResult, writeResult, kept]
  exact write_with_flags _ _ r _

end Width

/-! ### Machines that agree -/

/-- A machine that differs from another one in some registers at most. -/
structure AgreesBut (changed : Register → Prop) (m m' : Machine) : Prop where
  read : ∀ r, ¬ changed r → m'.read r = m.read r
  flags : m'.flags = m.flags
  memory : m'.memory = m.memory
  accesses : m'.accesses = m.accesses

namespace AgreesBut

variable {changed changed' : Register → Prop} {m' m'' : Machine}

/-- A machine agrees with itself. -/
theorem refl (m : Machine) : m.AgreesBut changed m :=
  ⟨fun _ _ => rfl, rfl, rfl, rfl⟩

/-- Changes may follow on each other. -/
theorem trans (h : m.AgreesBut changed m') (h' : m'.AgreesBut changed m'') :
    m.AgreesBut changed m'' where
  read r hr := (h'.read r hr).trans (h.read r hr)
  flags := h'.flags.trans h.flags
  memory := h'.memory.trans h.memory
  accesses := h'.accesses.trans h.accesses

/-- More registers may be said to have changed. -/
theorem mono (h : m.AgreesBut changed m') (hchanged : ∀ r, changed r → changed' r) :
    m.AgreesBut changed' m' :=
  { h with read := fun r hr => h.read r fun hr' => hr (hchanged r hr') }

/-- A write changes the register, under all of its names. -/
theorem write (hr : ∀ q : Register, q.code = r.code → changed q) (value : BitVec 64) :
    m.AgreesBut changed (m.write r value) where
  read q hq := read_write_of_ne fun code => hq (hr q code)
  flags := flags_write
  memory := memory_write
  accesses := accesses_write

/-- Registers that have not changed are read the same at each width. -/
theorem readAt (h : m.AgreesBut changed m') (hr : ¬ changed r) (w : Nat) :
    m'.readAt w r = m.readAt w r :=
  congrArg (BitVec.setWidth w) (h.read r hr)

end AgreesBut

/-! ### Machines after an operation -/

/-- A machine after an operation has written its result, and the flags if it sets them. Before that,
some registers may have changed. -/
def Leaves {w : Nat} (m : Machine) (changed : Register → Prop) (setsFlags : Bool) (rd : Register)
    (result : BitVec w × Flags) (m' : Machine) : Prop :=
  ∃ m₁, m.AgreesBut changed m₁ ∧ m' = m₁.writeResult setsFlags rd result

namespace Leaves

variable {w : Nat} {changed : Register → Prop} {setsFlags : Bool} {rd : Register}
  {result : BitVec w × Flags} {m' : Machine}

/-- The destination is read as the result. -/
theorem read_destination (h : m.Leaves changed setsFlags rd result m') (hrd : rd.IsBuilt)
    (hzero : rd.isZero = false) : m'.read rd = result.1.setWidth 64 := by
  obtain ⟨m₁, -, rfl⟩ := h
  exact read_write_self hrd hzero

/-- The flags are those of the result if the operation sets them. -/
theorem flags (h : m.Leaves changed setsFlags rd result m') :
    m'.flags = if setsFlags then result.2 else m.flags := by
  obtain ⟨m₁, agrees, rfl⟩ := h
  rw [← agrees.flags]
  rfl

/-- Besides the flags, only registers change. -/
theorem agreesBut (h : m.Leaves changed setsFlags rd result m')
    (hrd : ∀ q : Register, q.code = rd.code → changed q) :
    m.AgreesBut changed { m' with flags := m.flags } := by
  obtain ⟨m₁, agrees, rfl⟩ := h
  have written : m.AgreesBut changed (m₁.writeAt rd result.1) := agrees.trans (.write hrd _)
  exact ⟨written.read, rfl, written.memory, written.accesses⟩

/-- An operation that does not set flags changes registers only. -/
theorem agreesBut_of_setsFlags (h : m.Leaves changed false rd result m')
    (hrd : ∀ q : Register, q.code = rd.code → changed q) : m.AgreesBut changed m' := by
  have agrees := h.agreesBut hrd
  exact ⟨agrees.read, h.flags, agrees.memory, agrees.accesses⟩

end Leaves

end Machine

/-! ## Instructions -/

namespace Register

/-- The register of a field in which 31 is the zero register. -/
def orZero (n : Nat) : Register :=
  .ofField (BitVec.ofNat 5 n) .x false

/-- The register of a field in which 31 is the stack pointer. -/
def orStack (n : Nat) : Register :=
  .ofField (BitVec.ofNat 5 n) .x true

end Register

namespace Instruction

/-- The operation of an addition or subtraction. -/
def addSubOp (i : Instruction) : AddSubOp :=
  if i.isSubtract then (if i.setsFlags then .subs else .sub)
  else if i.setsFlags then .adds else .add

/-- The operation of a logical instruction. -/
def logicalOp (i : Instruction) : LogicalOp :=
  .ofField (i.bits 29 2)

/-- The 12-bit immediate of an addition or subtraction, shifted. -/
def shiftedImmediate (i : Instruction) (w : Nat) : BitVec w :=
  (i.bits 10 12).setWidth w <<< if i.bit 22 then 12 else 0

/-- Loads or stores at an address. A narrow load with sign extends to 64 or to 32 bits. Transfers of
other registers and reserved operations are not executed. -/
def transfer (i : Instruction) (m : Machine) (address : BitVec 64) : Option Machine := do
  let sizeLog2 ← i.accessSizeLog2?
  let rt := Register.orZero i.rt
  if i.bit 26 then none
  else match (i.bits 22 2).toNat with
    | 0 => some (m.store rt address (2 ^ sizeLog2))
    | 1 => some (m.load rt address (2 ^ sizeLog2) (·.setWidth 64))
    | 2 => if sizeLog2 < 3 then some (m.load rt address (2 ^ sizeLog2) (·.signExtend 64)) else none
    | _ =>
      if sizeLog2 < 2 then
        some (m.load rt address (2 ^ sizeLog2) fun v => (v.signExtend 32).setWidth 64)
      else none

/-- What an instruction does, for the classes of integer forms. -/
def execute (i : Instruction) (m : Machine) : Option Machine :=
  let w := i.width
  match i.category with
  | .addSubImmediate =>
    some (m.writeResult i.setsFlags (if i.setsFlags then .orZero i.rd else .orStack i.rd)
      (i.addSubOp.apply (m.readAt w (.orStack i.rn)) (i.shiftedImmediate w)))
  | .addSubShifted => do
    let (shift, amount) ← i.shift?
    some (m.writeResult i.setsFlags (.orZero i.rd)
      (i.addSubOp.apply (m.readAt w (.orZero i.rn))
        (shift.apply (m.readAt w (.orZero i.rm)) amount)))
  | .addSubExtended => do
    let (extend, amount) ← i.extend?
    some (m.writeResult i.setsFlags (if i.setsFlags then .orZero i.rd else .orStack i.rd)
      (i.addSubOp.apply (m.readAt w (.orStack i.rn))
        (extend.apply w (m.read (.orZero i.rm)) <<< amount)))
  | .logicalImmediate => do
    let value ← i.logicalImmediate?
    let setsFlags := i.logicalOp = .ands
    some (m.writeResult setsFlags (if setsFlags then .orZero i.rd else .orStack i.rd)
      (i.logicalOp.apply (m.readAt w (.orZero i.rn)) (BitVec.ofNat w value)))
  | .logicalShifted => do
    let (shift, amount) ← i.shift?
    let operand := shift.apply (m.readAt w (.orZero i.rm)) amount
    some (m.writeResult (i.logicalOp = .ands) (.orZero i.rd)
      (i.logicalOp.apply (m.readAt w (.orZero i.rn)) (if i.bit 21 then ~~~operand else operand)))
  | .moveWide => do
    let op ← MoveWideOp.ofField? (i.bits 29 2)
    let (imm16, shift) ← i.moveWide?
    some (m.writeAt (.orZero i.rd) (op.apply (m.readAt w (.orZero i.rd)) imm16 shift))
  | .bitfield => do
    let op ← BitfieldOp.ofField? (i.bits 29 2)
    let (immr, imms) ← i.bitfield?
    some (m.writeAt (.orZero i.rd)
      (op.apply (m.readAt w (.orZero i.rd)) (m.readAt w (.orZero i.rn)) immr imms))
  | .extract => do
    let (_, lsb) ← i.bitfield?
    some (m.writeAt (.orZero i.rd)
      ((m.readAt w (.orZero i.rn) ++ m.readAt w (.orZero i.rm)).extractLsb' lsb w))
  | .loadStoreUnsignedOffset | .loadStoreUnscaledOffset => do
    i.transfer m (m.read (.orStack i.rn) + BitVec.ofInt 64 (← i.loadStoreOffset?))
  | .loadStoreRegisterOffset => do
    let (extend, amount) ← i.extend?
    i.transfer m (m.read (.orStack i.rn) + extend.apply 64 (m.read (.orZero i.rm)) <<< amount)
  | .loadStorePreIndex => do
    let address := m.read (.orStack i.rn) + BitVec.ofInt 64 (← i.loadStoreOffset?)
    return (← i.transfer m address).write (.orStack i.rn) address
  | .loadStorePostIndex => do
    let address := m.read (.orStack i.rn) + BitVec.ofInt 64 (← i.loadStoreOffset?)
    return (← i.transfer m (m.read (.orStack i.rn))).write (.orStack i.rn) address
  | _ => none

end Instruction

namespace Machine

/-- Executes a word of the base instruction set. -/
def step (m : Machine) (w : Word) : Option Machine :=
  Instruction.execute ⟨w, EncodingIndex.graph.classify w .a64, .a64, 0⟩ m

/-- Executes words one after another. -/
def run (m : Machine) (ws : List Word) : Option Machine :=
  ws.foldlM step m

end Machine

end AArch64
