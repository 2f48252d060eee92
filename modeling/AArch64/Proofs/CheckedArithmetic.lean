import AArch64.Immediate.Bitmask
import Mathlib.Tactic.Common

/-!
# Immediates in checked arithmetic

The codecs of immediates shift, subtract and negate in arithmetic of a fixed width. For the widths
and the values that they are used with, none of these steps traps, and each codec computes what its
plain definition says.

## Main results

* `AArch64.Immediate.halfwords_eq`, `AArch64.Immediate.moveWide_eq`,
  `AArch64.Immediate.isScaledOffset_eq` — halfwords and offsets.
* `AArch64.RotatedRun.search_eq` — the search for the run of a 64-bit value.
* `AArch64.Bitmask.encode_eq` — the encoder of bitmask immediates.
-/

set_option autoImplicit false

namespace AArch64

/-! ## Loops without traps -/

section Loops

variable {ε α β : Type}

/-- A computation that has answered goes on with its answer. -/
theorem ok_bind (a : α) (f : α → Except ε β) : (.ok a >>= f : Except ε β) = f a := rfl

/-- A list is mapped by a computation that answers at each of its elements. -/
theorem mapM_eq_ok {f : α → Except ε β} {g : α → β} {l : List α} (h : ∀ a ∈ l, f a = .ok (g a)) :
    l.mapM f = .ok (l.map g) := by
  induction l with
  | nil => rfl
  | cons a l ih =>
    obtain ⟨ha, hl⟩ := List.forall_mem_cons.1 h
    rw [List.mapM_cons, ha, ih hl]
    rfl

/-- A list is searched by a computation that answers at each of its elements. -/
theorem findM?_eq_ok {f : α → Except ε Bool} {p : α → Bool} {l : List α}
    (h : ∀ a ∈ l, f a = .ok (p a)) : l.findM? f = .ok (l.find? p) := by
  induction l with
  | nil => rfl
  | cons a l ih =>
    obtain ⟨ha, hl⟩ := List.forall_mem_cons.1 h
    rw [List.findM?, ha, List.find?_cons]
    cases p a with
    | true => rfl
    | false => exact ih hl

end Loops

namespace Immediate

/-! ## Halfwords and offsets -/

/-- Negation does not overflow, the most negative number excepted. -/
theorem negate_eq {imm : Int} (h : imm ≠ mostNegative 64) : negate imm = .ok (-imm) := by
  rw [negate, Trap.fits, if_pos (decide_eq_true h)]
  rfl

/-- A value that an operation reads as a signed number has a negative unless it is the most negative
number of the width. -/
theorem ne_mostNegative {imm value : Int} {width : Nat} (h : atWidth? imm width = some value)
    (hne : value ≠ mostNegative width) : value ≠ mostNegative 64 := by
  rw [atWidth?] at h
  split at h
  · next wide => exact wide ▸ hne
  · split at h
    · next fits =>
      have lower : -2 ^ 31 ≤ imm := fits.1
      have value_eq := Option.some.inj h
      have : -2 ^ 31 ≤ value := by split at value_eq <;> omega
      have : mostNegative 64 = -2 ^ 63 := rfl
      omega
    · cases h

/-- A value of 64 bits has four halfwords. -/
theorem halfwords_eq (value : Nat) {n : Nat} (h : n ≤ 4) :
    halfwords value n = .ok ((List.range n).map (halfword value)) := by
  have shift : ∀ i ∈ List.range n,
      (do return (← Bits.shiftRight 64 value (16 * i)) % 2 ^ 16 : Except Trap Nat) =
        .ok (halfword value i) := by
    intro i hi
    rw [Bits.shiftRight_of_lt (by have := List.mem_range.1 hi; omega)]
    rfl
  exact mapM_eq_ok shift

/-- The search for a single halfword does not overflow for widths of up to 79 bits. -/
theorem moveWide_eq (value : Nat) {width : Nat} (h : width / 16 ≤ 4) :
    moveWide value width = .ok (moveWide? value width) := by
  rw [moveWide, Nat.min_eq_right h]
  split
  · next several =>
    rw [moveWide?]
    split
    · next none => simp [none] at several
    · next one => simp [one] at several
    · rfl
  · rw [Trap.fits, if_pos (decide_eq_true h)]
    rfl

/-- The test of a scaled offset does not overflow for accesses of less than `2 ^ 63` bytes. -/
theorem isScaledOffset_eq (offset : Int) {sizeLog2 : Nat} (h : sizeLog2 < 63) :
    isScaledOffset offset sizeLog2 =
      .ok (0 ≤ offset ∧ offset % 2 ^ sizeLog2 = 0 ∧ offset / 2 ^ sizeLog2 < 4096) := by
  rw [isScaledOffset]
  split
  · next negative => simp [pure, Except.pure, show ¬ 0 ≤ offset by omega]
  · next nonnegative =>
    rw [Trap.fits, if_pos (decide_eq_true h)]
    simp [bind, Except.bind, pure, Except.pure, show 0 ≤ offset by omega]

end Immediate

/-! ## Bitmask immediates -/

namespace RotatedRun

/-- Up to 64 low bits are set without overflow. -/
theorem lowOnes_eq {n : Nat} (h : n ≤ 64) : lowOnes n = .ok (2 ^ n - 1) := by
  rw [lowOnes]
  split
  · next full =>
    subst full
    rfl
  · next narrow =>
    rw [Bits.shiftLeft_one (by omega)]
    exact Bits.difference_of_le (Nat.one_le_two_pow)

/-! ### The smallest element -/

/-- The smallest element of a value of `2 ^ k` bits has no more bits. -/
theorem elementLog_le (value : Nat) {k : Nat} (hk : 1 ≤ k) : elementLog value k ≤ k := by
  fun_induction elementLog value k with
  | case1 => omega
  | case2 => omega
  | case3 value k half agree ih => have := ih (by omega); omega
  | case4 value k half differ => omega

/-- The halves of a value of `2 ^ (k + 1)` bits. -/
theorem div_half_lt {value k : Nat} (h : value < 2 ^ 2 ^ (k + 1)) :
    value / 2 ^ 2 ^ k < 2 ^ 2 ^ k := by
  rw [Nat.div_lt_iff_lt_mul (Nat.two_pow_pos _), ← Nat.pow_add, ← Nat.mul_two, ← Nat.pow_succ]
  exact h

/-- The lower half has the element of the value. -/
theorem mod_half_mod_element (value : Nat) {k e : Nat} (h : e ≤ k) :
    value % 2 ^ 2 ^ k % 2 ^ 2 ^ e = value % 2 ^ 2 ^ e :=
  Nat.mod_mod_of_dvd _ (Nat.pow_dvd_pow 2 (Nat.pow_le_pow_right (by decide) h))

/-- A value is zero if its element is. -/
theorem eq_zero_of_element {value k : Nat} (hk : 1 ≤ k) (hvalue : value < 2 ^ 2 ^ k)
    (h : value % 2 ^ 2 ^ elementLog value k = 0) : value = 0 := by
  fun_induction elementLog value k with
  | case1 => omega
  | case2 => exact Nat.mod_eq_of_lt hvalue ▸ h
  | case3 value k half agree ih =>
    have upper : value / half < half := div_half_lt hvalue
    have log : elementLog (value % half) (k + 1) ≤ k + 1 := elementLog_le _ (by omega)
    have lower : value % half = 0 :=
      ih (by omega) (Nat.mod_lt _ (Nat.two_pow_pos _)) ((mod_half_mod_element value log).trans h)
    rw [Nat.mod_eq_of_lt upper, lower] at agree
    rw [← Nat.div_add_mod value half, agree, lower, Nat.mul_zero]
  | case4 value k half differ => exact Nat.mod_eq_of_lt hvalue ▸ h

/-- The search for the smallest element does not overflow. -/
theorem smallestElement_eq {value k : Nat} (hk : k ≤ 6) (hvalue : value < 2 ^ 2 ^ k) :
    smallestElement value k =
      .ok (2 ^ elementLog value k, value % 2 ^ 2 ^ elementLog value k) := by
  fun_induction elementLog value k with
  | case1 => rw [smallestElement, Nat.mod_eq_of_lt (Nat.lt_trans hvalue (by decide))]
  | case2 => rw [smallestElement, Nat.mod_eq_of_lt hvalue]
  | case3 value k half agree ih =>
    have size : 2 ^ (k + 1) ≤ 2 ^ 5 := Nat.pow_le_pow_right (by decide) (by omega)
    rw [smallestElement, lowOnes_eq (by omega), Bits.shiftRight_of_lt (by omega)]
    have same : value &&& (2 ^ 2 ^ (k + 1) - 1) =
        value / 2 ^ 2 ^ (k + 1) &&& (2 ^ 2 ^ (k + 1) - 1) := by
      rw [Nat.and_two_pow_sub_one_eq_mod, Nat.and_two_pow_sub_one_eq_mod]
      exact agree.symm
    dsimp only [bind, Except.bind]
    rw [if_neg (not_not_intro same), Nat.and_two_pow_sub_one_eq_mod]
    rw [ih (by omega) (Nat.mod_lt _ (Nat.two_pow_pos _)),
      mod_half_mod_element value (elementLog_le (value % half) (by omega))]
  | case4 value k half differ =>
    have size : 2 ^ (k + 1) ≤ 2 ^ 5 := Nat.pow_le_pow_right (by decide) (by omega)
    rw [smallestElement, lowOnes_eq (by omega), Bits.shiftRight_of_lt (by omega)]
    have other : value &&& (2 ^ 2 ^ (k + 1) - 1) ≠
        value / 2 ^ 2 ^ (k + 1) &&& (2 ^ 2 ^ (k + 1) - 1) := by
      rw [Nat.and_two_pow_sub_one_eq_mod, Nat.and_two_pow_sub_one_eq_mod]
      exact fun agree => differ agree.symm
    dsimp only [bind, Except.bind]
    rw [if_pos other, Nat.mod_eq_of_lt hvalue]
    rfl

/-! ### The rotation -/

/-- The bits of an element above the lowest `r` ones. -/
theorem div_two_pow_lt {size element r : Nat} (helement : element < 2 ^ size) (hr : r ≤ size) :
    element / 2 ^ r < 2 ^ (size - r) :=
  Nat.div_lt_of_lt_mul (by rwa [← Nat.pow_add, Nat.add_sub_cancel' hr])

/-- An element of up to 64 bits is rotated without overflow. -/
theorem rotate_eq {size element r : Nat} (hsize : size ≤ 64) (helement : element < 2 ^ size)
    (hr : r < size) : rotate size element r = .ok (rotateRight size element r) := by
  rw [rotate, rotateRight]
  split
  · next nothing => simp [nothing, Nat.mod_one, pure, Except.pure]
  · next some =>
    have split : 2 ^ size = 2 ^ r * 2 ^ (size - r) := by rw [← Nat.pow_add]; congr 1; omega
    have low := div_two_pow_lt helement (Nat.le_of_lt hr)
    have high : element * 2 ^ (size - r) % 2 ^ 64 % 2 ^ size =
        element % 2 ^ r * 2 ^ (size - r) := by
      rw [Nat.mod_mod_of_dvd _ (Nat.pow_dvd_pow 2 hsize), split, Nat.mul_mod_mul_right]
    have fits : element / 2 ^ r < 2 ^ size :=
      Nat.lt_of_le_of_lt (Nat.div_le_self _ _) helement
    rw [Bits.shiftRight_of_lt (by omega), Bits.difference_of_le (by omega)]
    dsimp only [bind, Except.bind]
    rw [Bits.shiftLeft_of_lt (by omega), lowOnes_eq hsize]
    dsimp only [pure, Except.pure]
    rw [Nat.and_two_pow_sub_one_eq_mod, Nat.or_mod_two_pow, high, Nat.mod_eq_of_lt fits,
      Nat.or_comm, Nat.mul_comm _ (2 ^ (size - r)), ← Nat.two_pow_add_eq_or_of_lt low, Nat.add_comm]

/-! ### The search -/

/-- A number has no more set bits than it has bits. -/
theorem ones_le (n value : Nat) : Bits.ones n value ≤ n := by
  induction n generalizing value with
  | zero => exact Nat.le_refl 0
  | succ n ih =>
    have := ih (value / 2)
    simp only [Bits.ones]
    omega

/-- A number that is not zero has a set bit. -/
theorem ones_pos {n value : Nat} (h : value % 2 ^ n ≠ 0) : 0 < Bits.ones n value := by
  induction n generalizing value with
  | zero => exact absurd (Nat.mod_one value) h
  | succ n ih =>
    rw [Bits.ones]
    rcases Nat.mod_two_eq_zero_or_one value with even | odd
    · rw [Nat.pow_succ, Nat.mul_comm, Nat.mod_mul, even] at h
      have half : 0 < Bits.ones n (value / 2) := ih (by omega)
      omega
    · omega

/-- The search in 64-bit arithmetic finds the run of a 64-bit value. -/
theorem search_eq {value : Nat} (hvalue : value < 2 ^ 64) :
    search value = .ok (ofValue? value 6) := by
  rw [search, ofValue?]
  split
  · rfl
  · have log : elementLog value 6 ≤ 6 := elementLog_le value (by decide)
    rw [smallestElement_eq (by decide) hvalue, ok_bind]
    dsimp only
    generalize hsize : 2 ^ elementLog value 6 = size
    have wide : size ≤ 64 := hsize ▸ Nat.pow_le_pow_right (by decide) log
    generalize value % 2 ^ size = element, (Nat.mod_lt value (Nat.two_pow_pos size)) = helement
    rw [lowOnes_eq (Nat.le_trans (ones_le size element) wide), ok_bind]
    have rotated : ∀ r ∈ List.range size,
        (do return (← rotate size element r) = 2 ^ Bits.ones size element - 1 :
            Except Trap Bool) =
          .ok (rotateRight size element r = 2 ^ Bits.ones size element - 1) := by
      intro r hr
      rw [rotate_eq wide helement (List.mem_range.1 hr)]
      rfl
    rw [findM?_eq_ok rotated, ok_bind]
    cases found : (List.range size).find? _ with
    | none => rfl
    | some r =>
      have hr : r < size := List.mem_range.1 (List.mem_of_find?_eq_some found)
      dsimp only
      rw [Bits.difference_of_le (by omega), ok_bind]
      rfl

/-- A run that is found has ones. -/
theorem length_pos_of_ofValue? {value k : Nat} {run : RotatedRun} (hk : 1 ≤ k)
    (hvalue : value < 2 ^ 2 ^ k) (h : ofValue? value k = some run) : 0 < run.length := by
  rw [ofValue?] at h
  split at h
  · cases h
  · next bounds =>
    obtain ⟨r, -, rfl⟩ := Option.map_eq_some_iff.1 h
    refine ones_pos fun element => bounds (.inl (eq_zero_of_element hk hvalue ?_))
    rwa [Nat.mod_mod] at element

/-- The element of a run is not wider than the value. -/
theorem size_le_of_ofValue? {value k : Nat} {run : RotatedRun} (hk : 1 ≤ k)
    (h : ofValue? value k = some run) : run.size ≤ 2 ^ k := by
  rw [ofValue?] at h
  split at h
  · cases h
  · obtain ⟨r, -, rfl⟩ := Option.map_eq_some_iff.1 h
    exact Nat.pow_le_pow_right (by decide) (elementLog_le value hk)

/-- The run of a value of 32 bits is the one of the value that is repeated once. -/
theorem ofValue?_repeated {value : Nat} (h : value < 2 ^ 32) :
    ofValue? (value * 2 ^ 32 + value) 6 = ofValue? value 5 := by
  have upper : (value * 2 ^ 32 + value) / 2 ^ 32 % 2 ^ 32 = value := by
    rw [Nat.mul_comm, Nat.mul_add_div (by decide), Nat.div_eq_of_lt h, Nat.add_zero,
      Nat.mod_eq_of_lt h]
  have lower : (value * 2 ^ 32 + value) % 2 ^ 32 = value := by omega
  have log : elementLog (value * 2 ^ 32 + value) 6 = elementLog value 5 := by
    rw [elementLog, if_pos (upper.trans lower.symm)]
    exact congrArg (elementLog · 5) lower
  have element := mod_half_mod_element (value * 2 ^ 32 + value)
    (elementLog_le value (k := 5) (by decide))
  have bounds : (value * 2 ^ 32 + value = 0 ∨ value * 2 ^ 32 + value = 2 ^ 2 ^ 6 - 1) ↔
      (value = 0 ∨ value = 2 ^ 2 ^ 5 - 1) := by omega
  have repeated : (value * 2 ^ 32 + value) % 2 ^ 2 ^ elementLog value 5 =
      value % 2 ^ 2 ^ elementLog value 5 := by
    rw [← element]
    exact congrArg (· % _) lower
  rw [ofValue?, ofValue?, log]
  simp only [bounds, repeated]

end RotatedRun

namespace Bitmask

/-- The fields of a run that is not empty are computed without overflow. -/
theorem spell_eq {run : RotatedRun} (h : 0 < run.length) : run.spell = .ok run.fields := by
  rw [RotatedRun.spell, Bits.difference_of_le h]
  rfl

/-- A narrow value is repeated before its run is searched, which does not change the run. -/
theorem search_narrow_eq {low : Nat} (h : low < 2 ^ 32) :
    (fill64 low 32 >>= RotatedRun.search) = .ok (RotatedRun.ofValue? low 5) := by
  have high : low * 2 ^ 32 % 2 ^ 64 = 2 ^ 32 * low := by omega
  have filled : fill64 low 32 = .ok (low * 2 ^ 32 + low) := by
    rw [fill64, if_pos rfl, Bits.shiftLeft_of_lt (by decide), ok_bind, high, Nat.or_comm,
      ← Nat.two_pow_add_eq_or_of_lt h, Nat.mul_comm]
    rfl
  rw [filled, ok_bind, RotatedRun.search_eq (by omega), RotatedRun.ofValue?_repeated h]

/-- The search for a run in 64 bits does not overflow. -/
theorem search_wide_eq {low : Nat} (h : low < 2 ^ 64) :
    (fill64 low 64 >>= RotatedRun.search) = .ok (RotatedRun.ofValue? low 6) := by
  have filled : fill64 low 64 = .ok low := by
    rw [fill64, if_neg (by decide)]
    rfl
  rw [filled, ok_bind, RotatedRun.search_eq h]

/-- **The encoder of bitmask immediates does not trap.** For operations of 32 and 64 bits it answers
the fields of the run of the value, if the value has one.

**Proof sketch.** A narrow value is repeated to 64 bits, which does not change its run
(`AArch64.RotatedRun.ofValue?_repeated`). The search shifts by less than 64 only: by the half of a
size, and by rotations other than zero (`AArch64.RotatedRun.search_eq`). -/
theorem encode_eq (value : Nat) {k : Nat} (hk : k = 5 ∨ k = 6) :
    encode value (2 ^ k) =
      .ok ((RotatedRun.ofValue? (value % 2 ^ 2 ^ k) k).map RotatedRun.fields) := by
  have small : value % 2 ^ 2 ^ k < 2 ^ 2 ^ k := Nat.mod_lt _ (Nat.two_pow_pos _)
  generalize hlow : value % 2 ^ 2 ^ k = low at small
  have width : Trap.demand (2 ^ k = 32 ∨ 2 ^ k = 64) = .ok () := by
    rcases hk with rfl | rfl
    · rfl
    · rfl
  have searched : (fill64 low (2 ^ k) >>= RotatedRun.search) =
      .ok (RotatedRun.ofValue? low k) := by
    rcases hk with rfl | rfl
    · exact search_narrow_eq small
    · exact search_wide_eq small
  rw [encode, width, ok_bind, hlow, ← bind_assoc, searched, ok_bind]
  cases found : RotatedRun.ofValue? low k with
  | none => rfl
  | some run =>
    have length := RotatedRun.length_pos_of_ofValue? (by omega) small found
    have size := RotatedRun.size_le_of_ofValue? (by omega) found
    have narrow : ¬ (2 ^ k = 32 ∧ run.size = 64) := by omega
    dsimp only
    rw [if_neg narrow, spell_eq length]
    rfl

end Bitmask

end AArch64
