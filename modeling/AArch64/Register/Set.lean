import AArch64.Bits
import AArch64.Register

/-!
# Sets of general-purpose registers

A set of register numbers, whatever the view. The zero register and the stack pointer are never
members: inserting or erasing them changes nothing.

## Main definitions

* `AArch64.RegisterSet` — the set, one bit for each number.
* `AArch64.RegisterSet.insert`, `AArch64.RegisterSet.erase`, `AArch64.RegisterSet.contains`.
* `AArch64.RegisterSet.first?` — the lowest number.
* `AArch64.RegisterSet.checkedInsert`, `AArch64.RegisterSet.checkedErase`,
  `AArch64.RegisterSet.checkedContains` — the same in checked arithmetic.

## Main results

* `AArch64.RegisterSet.contains_insert`, `AArch64.RegisterSet.contains_erase` — the members after a
  change.
* `AArch64.RegisterSet.checkedInsert_eq`, `AArch64.RegisterSet.checkedErase_eq`,
  `AArch64.RegisterSet.checkedContains_eq` — checked arithmetic always has an answer.
-/

set_option autoImplicit false

namespace AArch64

/-- A set of general-purpose registers. -/
structure RegisterSet where
  /-- Bit `n` is set if register `n` is a member. -/
  bits : BitVec 32
  deriving DecidableEq

namespace RegisterSet

/-- No registers. -/
def empty : RegisterSet :=
  { bits := 0 }

/-- Whether a register is a member. -/
def contains (s : RegisterSet) (r : Register) : Bool :=
  r.isGeneral && s.bits.getLsbD r.code.toNat

/-- Adds a register. -/
def insert (s : RegisterSet) (r : Register) : RegisterSet :=
  if r.isGeneral then { bits := s.bits ||| .twoPow 32 r.code.toNat } else s

/-- Takes a register out. -/
def erase (s : RegisterSet) (r : Register) : RegisterSet :=
  if r.isGeneral then { bits := s.bits &&& ~~~.twoPow 32 r.code.toNat } else s

/-- The bit of a register is that of no other register. -/
private theorem getLsbD_twoPow_code {r : Register} (hr : r.isGeneral) (q : Register) :
    (BitVec.twoPow 32 r.code.toNat).getLsbD q.code.toNat = decide (q.code = r.code) := by
  have := r.isGeneral_iff.1 hr
  simp only [BitVec.getLsbD_twoPow, show r.code.toNat < 32 by omega, decide_true, Bool.true_and,
    ← BitVec.toNat_inj, eq_comm]

/-- A general-purpose register is a member after it was inserted. -/
theorem contains_insert (s : RegisterSet) (r q : Register) :
    (s.insert r).contains q = (s.contains q || (q.isGeneral && q.code = r.code)) := by
  by_cases hr : r.isGeneral
  · simp [contains, insert, hr, getLsbD_twoPow_code hr, Bool.and_or_distrib_left]
  · have : q.code = r.code → q.isGeneral = r.isGeneral := fun h => by simp [Register.isGeneral, h]
    simp only [insert, hr]
    grind

/-- A register is no member after it was erased. -/
theorem contains_erase (s : RegisterSet) (r q : Register) :
    (s.erase r).contains q = (s.contains q && q.code ≠ r.code) := by
  by_cases hr : r.isGeneral
  · by_cases hq : q.isGeneral
    · have := q.isGeneral_iff.1 hq
      simp only [contains, erase, hr, hq, if_true, BitVec.getLsbD_and, BitVec.getLsbD_not,
        getLsbD_twoPow_code hr, show q.code.toNat < 32 by omega]
      simp
    · simp [contains, hq]
  · have : q.code = r.code → q.isGeneral = r.isGeneral := fun h => by simp [Register.isGeneral, h]
    simp only [erase, hr, contains]
    grind

/-- Adds registers one after another. -/
def insertMany (s : RegisterSet) (rs : List Register) : RegisterSet :=
  rs.foldl insert s

/-- Takes registers out one after another. -/
def eraseMany (s : RegisterSet) (rs : List Register) : RegisterSet :=
  rs.foldl erase s

/-- The set of the listed registers. -/
def ofList (rs : List Register) : RegisterSet :=
  empty.insertMany rs

/-- The lowest number in the set. -/
def first? (s : RegisterSet) : Option Nat :=
  Bits.lowest? 32 s.bits.toNat

/-- How many numbers are in the set. -/
def size (s : RegisterSet) : Nat :=
  Bits.ones 32 s.bits.toNat

/-- Whether the set is empty. -/
def isEmpty (s : RegisterSet) : Bool :=
  s.bits = 0

/-- The registers that a procedure call may clobber, 16 and 17. -/
def callClobbered : RegisterSet :=
  ofList [{ code := 16, view := .x }, { code := 17, view := .x }]

/-! ## Checked arithmetic -/

/-- The bit of a register: a one, shifted by its code. There is none for codes from 32 on. -/
def bit (r : Register) : Except Trap (BitVec 32) := do
  return BitVec.ofNat 32 (← Bits.shiftLeft 32 1 r.code.toNat)

/-- Whether a register is a member. The bit is looked at for general-purpose registers only. -/
def checkedContains (s : RegisterSet) (r : Register) : Except Trap Bool := do
  if r.isGeneral then return s.bits &&& (← bit r) ≠ 0
  return false

/-- Adds a register. -/
def checkedInsert (s : RegisterSet) (r : Register) : Except Trap RegisterSet := do
  if r.isGeneral then return { bits := s.bits ||| (← bit r) }
  return s

/-- Takes a register out. -/
def checkedErase (s : RegisterSet) (r : Register) : Except Trap RegisterSet := do
  if r.isGeneral then return { bits := s.bits &&& ~~~(← bit r) }
  return s

/-- A general-purpose register has a bit. -/
theorem bit_of_isGeneral {r : Register} (h : r.isGeneral) :
    bit r = .ok (.twoPow 32 r.code.toNat) := by
  have lt := r.isGeneral_iff.1 h
  rw [bit, Bits.shiftLeft_of_lt (by omega)]
  refine congrArg Except.ok (BitVec.eq_of_toNat_eq ?_)
  rw [BitVec.toNat_ofNat, BitVec.toNat_twoPow, Nat.one_mul, Nat.mod_mod]

/-- Asking for a register does not trap. -/
theorem checkedContains_eq (s : RegisterSet) (r : Register) :
    s.checkedContains r = .ok (s.contains r) := by
  by_cases h : r.isGeneral
  · have nonzero : BitVec.twoPow 32 r.code.toNat ≠ 0#32 := by
      intro zero
      have selected := congrArg (·.getLsbD r.code.toNat) zero
      simp [getLsbD_twoPow_code h] at selected
    cases set : s.bits.getLsbD r.code.toNat <;>
      simp [checkedContains, contains, h, bit_of_isGeneral, BitVec.and_twoPow, set, nonzero,
        bind, Except.bind, pure, Except.pure]
  · simp [checkedContains, contains, h, pure, Except.pure]

/-- Putting a register in does not trap. -/
theorem checkedInsert_eq (s : RegisterSet) (r : Register) :
    s.checkedInsert r = .ok (s.insert r) := by
  by_cases h : r.isGeneral
  · simp [checkedInsert, insert, h, bit_of_isGeneral, bind, Except.bind, pure, Except.pure]
  · simp [checkedInsert, insert, h, pure, Except.pure]

/-- Taking a register out does not trap. -/
theorem checkedErase_eq (s : RegisterSet) (r : Register) :
    s.checkedErase r = .ok (s.erase r) := by
  by_cases h : r.isGeneral
  · simp [checkedErase, erase, h, bit_of_isGeneral, bind, Except.bind, pure, Except.pure]
  · simp [checkedErase, erase, h, pure, Except.pure]

end RegisterSet

end AArch64
