import AArch64.Trap

/-!
# Bits of a word

Positions count from the least significant bit, which is bit `0`. The first section holds the
total operations, on natural numbers with an explicit number `n` of bits to look at; they recurse
on `n` and read one bit at a time, lowest first. The second section holds the checked reads of a
word of fixed width, whose arguments may lie outside the word, the third one checked arithmetic on
words of fixed width, and the last one selection and reads that are done in such arithmetic, on
numbers of 128 bits.

## Main definitions

* `AArch64.Bits.gather` — the bits selected by a mask, packed into the low end.
* `AArch64.Bits.scatter` — the low bits of a number, spread over the positions of a mask.
* `AArch64.Bits.ones`, `AArch64.Bits.lowest?` — how many bits are set, and the first of them.
* `AArch64.Bits.ofPredicate` — the number whose set bits a predicate names.
* `AArch64.Bits.isSet`, `AArch64.Bits.field`, `AArch64.Bits.signed` — checked reads.
* `AArch64.Bits.shiftLeft`, `AArch64.Bits.shiftRight`, `AArch64.Bits.shiftRightSigned`,
  `AArch64.Bits.difference`, `AArch64.Bits.differenceSigned` — checked arithmetic.
* `AArch64.Bits.Route.move` — gathering and scattering, one set position of the mask at a time.
* `AArch64.Bits.signedByBorrow` — `signed` by a subtraction.

## Main results

* `AArch64.Bits.gather_scatter`, `AArch64.Bits.scatter_gather` — gathering and scattering undo each
  other, up to the bits that the mask leaves out.
* `AArch64.Bits.testBit_ofPredicate` — the bits of `ofPredicate`.
-/

set_option autoImplicit false

namespace AArch64

-- a power is the same term in a module that knows more instances of powers
attribute [scoped instance (high)] instPowNat
attribute [default_instance 20000] instPowNat

/-- An instruction word. -/
abbrev Word := BitVec 32

namespace Bits

/-! ## Selection of bits by a mask -/

/-- Packs the bits of `value` at the set positions of `mask` into the low bits of the result,
keeping their order. Only the low `n` positions are looked at. -/
def gather : (n value mask : Nat) → Nat
  | 0, _, _ => 0
  | n + 1, value, mask =>
    if mask % 2 = 1 then value % 2 + 2 * gather n (value / 2) (mask / 2)
    else gather n (value / 2) (mask / 2)

/-- Spreads the low bits of `value` over the set positions of `mask`, lowest first. Only the low
`n` positions are looked at. -/
def scatter : (n value mask : Nat) → Nat
  | 0, _, _ => 0
  | n + 1, value, mask =>
    if mask % 2 = 1 then value % 2 + 2 * scatter n (value / 2) (mask / 2)
    else 2 * scatter n value (mask / 2)

/-- How many of the low `n` bits are set. -/
def ones : (n value : Nat) → Nat
  | 0, _ => 0
  | n + 1, value => value % 2 + ones n (value / 2)

/-- The lowest set position below `n`. -/
def lowest? : (n value : Nat) → Option Nat
  | 0, _ => none
  | n + 1, value => if value % 2 = 1 then some 0 else (lowest? n (value / 2)).map (· + 1)

/-- The number below `2 ^ n` whose bit `i` is set exactly when `p i` holds. -/
def ofPredicate (p : Nat → Bool) : (n : Nat) → Nat
  | 0 => 0
  | n + 1 => ofPredicate p n + if p n then 2 ^ n else 0

/-- What was scattered is gathered again, as far as the mask has room for it. -/
theorem gather_scatter (n value mask : Nat) :
    gather n (scatter n value mask) mask = value % 2 ^ ones n mask := by
  induction n generalizing value mask with
  | zero => simp [gather, ones, Nat.mod_one]
  | succ n ih =>
    rcases Nat.mod_two_eq_zero_or_one mask with h | h
    · simp [gather, scatter, ones, h, ih]
    · have low : (value % 2 + 2 * scatter n (value / 2) (mask / 2)) % 2 = value % 2 := by omega
      have high : (value % 2 + 2 * scatter n (value / 2) (mask / 2)) / 2 =
          scatter n (value / 2) (mask / 2) := by omega
      simp only [gather, scatter, ones, h, if_true, low, high, ih]
      rw [Nat.add_comm 1, Nat.pow_succ, Nat.mul_comm (2 ^ _) 2, Nat.mod_mul]

/-- What was gathered is scattered back to where it was, and the other positions are clear. -/
theorem scatter_gather (n value mask : Nat) :
    scatter n (gather n value mask) mask = (value &&& mask) % 2 ^ n := by
  induction n generalizing value mask with
  | zero => simp [scatter, Nat.mod_one]
  | succ n ih =>
    rw [Nat.pow_succ, Nat.mul_comm, Nat.mod_mul, Nat.and_mod_two_pow (n := 1), Nat.and_div_two,
      ← ih]
    rcases Nat.mod_two_eq_zero_or_one mask with h | h
    · simp [gather, scatter, h]
    · have low : (value % 2 + 2 * gather n (value / 2) (mask / 2)) % 2 = value % 2 := by omega
      have high : (value % 2 + 2 * gather n (value / 2) (mask / 2)) / 2 =
          gather n (value / 2) (mask / 2) := by omega
      simp only [gather, scatter, h, if_true, low, high, Nat.pow_one, Nat.and_one_is_mod,
        Nat.mod_mod]

/-- A number of `n` bits is below `2 ^ n`. -/
theorem ofPredicate_lt (p : Nat → Bool) (n : Nat) : ofPredicate p n < 2 ^ n := by
  induction n with
  | zero => simp [ofPredicate]
  | succ n ih => simp only [ofPredicate, Nat.pow_succ]; split <;> omega

/-- The bits of a number that is given by its bits. -/
theorem testBit_ofPredicate (p : Nat → Bool) (n i : Nat) :
    (ofPredicate p n).testBit i = (decide (i < n) && p i) := by
  induction n with
  | zero => simp [ofPredicate]
  | succ n ih =>
    have below := ofPredicate_lt p n
    by_cases hp : p n
    · simp only [ofPredicate, hp, if_true, Nat.add_comm _ (2 ^ n)]
      rcases Nat.lt_trichotomy i n with h | rfl | h
      · simp [Nat.testBit_two_pow_add_gt h, ih, h, Nat.lt_succ_of_lt h]
      · simp [Nat.testBit_two_pow_add_eq, Nat.testBit_lt_two_pow below, hp]
      · have : 2 ^ n + ofPredicate p n < 2 ^ i :=
          Nat.lt_of_lt_of_le (by omega) (Nat.pow_le_pow_right (n := 2) (by omega) h)
        simp [Nat.testBit_lt_two_pow this, show ¬ i < n + 1 by omega]
    · have : i = n → p i = false := fun h => by simp [h, hp]
      simp only [ofPredicate, hp]
      grind

/-- Gathering packs the selected bits of a word into a word of the same width. -/
def gatherWord {w : Nat} (value mask : BitVec w) : BitVec w :=
  BitVec.ofNat w (gather w value.toNat mask.toNat)

/-- Scattering undoes `gatherWord` on the positions of the mask. -/
def scatterWord {w : Nat} (value mask : BitVec w) : BitVec w :=
  BitVec.ofNat w (scatter w value.toNat mask.toNat)

/-! ## Checked reads -/

/-- Whether bit `i` of the word is set; the word has to have that bit. -/
def isSet {w : Nat} (value : BitVec w) (i : Nat) : Except Trap Bool := do
  Trap.demand (i < w)
  return value.getLsbD i

/-- Whether bit `i` of the word is clear; the word has to have that bit. -/
def isClear {w : Nat} (value : BitVec w) (i : Nat) : Except Trap Bool := do
  return !(← isSet value i)

/-- The bits `lo..=hi`, moved down to bit `0`. The word has to have bit `hi`. An empty range
(`hi < lo`) reads as zero, as long as `lo` is a shift amount of the 128-bit arithmetic that the
read is done in. -/
def field {w : Nat} (value : BitVec w) (lo hi : Nat) : Except Trap (BitVec w) := do
  Trap.demand (hi < w)
  Trap.fits (lo < 128)
  return (value.extractLsb' lo (hi + 1 - lo)).setWidth w

/-- The low `n` bits of the word as a two's complement number, for `n` from 1 to 64. The field
may be wider than the word, whose missing bits are then zero. -/
def signed {w : Nat} (value : BitVec w) (n : Nat) : Except Trap Int := do
  Trap.demand (0 < n && n ≤ 64)
  return (value.setWidth n).toInt

/-! ## Checked arithmetic -/

/-- A number of `w` bits shifted to the left by less than `w`. Bits that leave it are lost. -/
def shiftLeft (w value amount : Nat) : Except Trap Nat := do
  Trap.fits (amount < w)
  return value * 2 ^ amount % 2 ^ w

/-- A number of `w` bits without sign, shifted to the right by less than `w`. -/
def shiftRight (w value amount : Nat) : Except Trap Nat := do
  Trap.fits (amount < w)
  return value / 2 ^ amount

/-- A number of `w` bits with sign, shifted to the right by less than `w`. The sign is kept. -/
def shiftRightSigned (w : Nat) (value : Int) (amount : Nat) : Except Trap Int := do
  Trap.fits (amount < w)
  return value / 2 ^ amount

/-- The difference of two numbers without sign. There is none below zero. -/
def difference (a b : Nat) : Except Trap Nat := do
  Trap.fits (b ≤ a)
  return a - b

/-- The difference of two numbers of `w` bits with sign. -/
def differenceSigned (w : Nat) (a b : Int) : Except Trap Int := do
  Trap.fits (-2 ^ (w - 1) ≤ a - b && a - b < 2 ^ (w - 1))
  return a - b

/-- A shift to the left by less than the width. Bits that leave the type are lost. -/
theorem shiftLeft_of_lt {w value amount : Nat} (h : amount < w) :
    shiftLeft w value amount = .ok (value * 2 ^ amount % 2 ^ w) := by
  simp [shiftLeft, Trap.fits, h, bind, Except.bind, pure, Except.pure]

/-- A single bit is shifted to its place. -/
theorem shiftLeft_one {w amount : Nat} (h : amount < w) :
    shiftLeft w 1 amount = .ok (2 ^ amount) := by
  rw [shiftLeft_of_lt h, Nat.one_mul, Nat.mod_eq_of_lt (Nat.pow_lt_pow_right (by decide) h)]

/-- A shift to the right by less than the width. -/
theorem shiftRight_of_lt {w value amount : Nat} (h : amount < w) :
    shiftRight w value amount = .ok (value / 2 ^ amount) := by
  simp [shiftRight, Trap.fits, h, bind, Except.bind, pure, Except.pure]

/-- A shift to the right by less than the width, with sign. -/
theorem shiftRightSigned_of_lt {w amount : Nat} {value : Int} (h : amount < w) :
    shiftRightSigned w value amount = .ok (value / 2 ^ amount) := by
  simp [shiftRightSigned, Trap.fits, h, bind, Except.bind, pure, Except.pure]

/-- A difference that is not negative. -/
theorem difference_of_le {a b : Nat} (h : b ≤ a) : difference a b = .ok (a - b) := by
  simp [difference, Trap.fits, h, bind, Except.bind, pure, Except.pure]

/-- A difference that fits the signed type. -/
theorem differenceSigned_of_le {w : Nat} {a b : Int} (h : -2 ^ (w - 1) ≤ a - b)
    (h' : a - b < 2 ^ (w - 1)) : differenceSigned w a b = .ok (a - b) := by
  simp [differenceSigned, Trap.fits, h, h', bind, Except.bind, pure, Except.pure]

/-! ## In arithmetic of 128 bits -/

/-- Which way bits go between the set positions of a mask and the low end of a number. -/
inductive Route
  /-- From the positions of the mask to the low end. -/
  | pack
  /-- From the low end to the positions of the mask. -/
  | spread

namespace Route

/-- Where the `k`-th bit comes from, given the `k`-th position `i`. -/
def source : Route → (i k : Nat) → Nat
  | .pack, i, _ => i
  | .spread, _, k => k

/-- Where the `k`-th bit goes, given the `k`-th position `i`. -/
def target : Route → (i k : Nat) → Nat
  | .pack, _, k => k
  | .spread, i, _ => i

/-- Adds bits of `value` to `result`, one for each set position of `mask`, from the lowest on. There
were `k` positions before. Subtracting one and taking the common bits clears the lowest position. -/
def visit (route : Route) (value mask k result : Nat) : Except Trap Nat :=
  if mask = 0 then .ok result
  else do
    let i := (lowest? 128 mask).getD 128
    let bit ← shiftRight 128 value (route.source i k)
    let moved ← shiftLeft 128 (bit &&& 1) (route.target i k)
    visit route value (mask &&& (mask - 1)) (k + 1) (result ||| moved)
termination_by mask
decreasing_by exact Nat.lt_of_le_of_lt Nat.and_le_right (by omega)

/-- Moves the bits of a word. What comes out has to fit the word again. -/
def move {w : Nat} (route : Route) (value mask : BitVec w) : Except Trap (BitVec w) := do
  let result ← route.visit value.toNat mask.toNat 0 0
  Trap.fits (result < 2 ^ w)
  return BitVec.ofNat w result

end Route

/-- `signed` by a subtraction. The sign bit of the field is flipped and then subtracted, which
borrows through all upper bits if it was set. The answer is read off the low 64 bits. -/
def signedByBorrow {w : Nat} (value : BitVec w) (n : Nat) : Except Trap Int := do
  Trap.demand (0 < n && n ≤ 64)
  let sign ← shiftLeft 128 1 (n - 1)
  let low ← difference (← shiftLeft 128 1 n) 1
  let flipped := value.toNat &&& low ^^^ sign
  let answer ← differenceSigned 128 (BitVec.ofNat 128 flipped).toInt (BitVec.ofNat 128 sign).toInt
  return (BitVec.ofInt 64 answer).toInt

end Bits

end AArch64
