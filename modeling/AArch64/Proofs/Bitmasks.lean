import AArch64.Proofs.CheckedArithmetic

/-!
# Bitmask immediates are read back

The fields of a bitmask immediate stand for the value that they were encoded from. The value repeats
its smallest element, a rotation of the element is a run of ones at bit 0, and the fields spell the
size of the element, the length of the run and the rotation that undoes the other one. Back from the
fields, the run is rotated and then repeated by doubling.

## Main definitions

* `AArch64.RotatedRun.Fits` — the runs that an operation can have.

## Main results

* `AArch64.RotatedRun.testBit_eq_element` — a value repeats its element.
* `AArch64.RotatedRun.describes_of_ofValue?` — the run of a value has the bits of its element.
* `AArch64.RotatedRun.run?_fields` — the fields of a run stand for the run.
* `AArch64.Bitmask.decode_eq` — the decoder of bitmask immediates.
* `AArch64.Bitmask.value?_of_encode` — what was encoded is read back.
-/

set_option autoImplicit false

namespace AArch64

namespace RotatedRun

/-! ## The bits of a value -/

/-- An element has at least two bits. -/
theorem elementLog_pos (value k : Nat) : 1 ≤ elementLog value k := by
  fun_induction elementLog value k with
  | case1 => exact Nat.le_refl 1
  | case2 => exact Nat.le_refl 1
  | case3 value k half agree ih => exact ih
  | case4 value k half differ => omega

/-- A value repeats its element. -/
theorem testBit_eq_element {value k : Nat} (hk : 1 ≤ k) (hvalue : value < 2 ^ 2 ^ k) :
    ∀ i < 2 ^ k, value.testBit i =
      (value % 2 ^ 2 ^ elementLog value k).testBit (i % 2 ^ elementLog value k) := by
  fun_induction elementLog value k with
  | case1 => omega
  | case2 =>
    intro i hi
    rw [Nat.mod_eq_of_lt hvalue, Nat.mod_eq_of_lt hi]
  | case3 value k half agree ih =>
    have log : elementLog (value % half) (k + 1) ≤ k + 1 := elementLog_le _ (by omega)
    have lower : ∀ j < 2 ^ (k + 1), (value % half).testBit j =
        (value % 2 ^ 2 ^ elementLog (value % half) (k + 1)).testBit
          (j % 2 ^ elementLog (value % half) (k + 1)) := by
      intro j hj
      rw [ih (by omega) (Nat.mod_lt _ (Nat.two_pow_pos _)) j hj, mod_half_mod_element value log]
    intro i hi
    by_cases low : i < 2 ^ (k + 1)
    · rw [← lower i low, Nat.testBit_mod_two_pow, decide_eq_true low, Bool.true_and]
    · -- a bit of the upper half is the bit of the lower half below it
      obtain ⟨j, rfl⟩ : ∃ j, i = j + 2 ^ (k + 1) := ⟨i - 2 ^ (k + 1), by omega⟩
      have hj : j < 2 ^ (k + 1) := by
        have double : 2 ^ (k + 2) = 2 ^ (k + 1) * 2 := Nat.pow_succ 2 (k + 1)
        omega
      have repeats : (j + 2 ^ (k + 1)) % 2 ^ elementLog (value % half) (k + 1) =
          j % 2 ^ elementLog (value % half) (k + 1) := by
        obtain ⟨n, hn⟩ : 2 ^ elementLog (value % half) (k + 1) ∣ 2 ^ (k + 1) :=
          Nat.pow_dvd_pow 2 log
        rw [hn, Nat.add_mul_mod_self_left]
      rw [repeats, ← lower j hj, ← agree, Nat.testBit_mod_two_pow, decide_eq_true hj,
        Bool.true_and, Nat.testBit_div_two_pow]
  | case4 value k half differ =>
    intro i hi
    rw [Nat.mod_eq_of_lt hvalue, Nat.mod_eq_of_lt hi]

/-- A rotation moves bits of the element around. -/
theorem testBit_rotateRight {size element r j : Nat} (helement : element < 2 ^ size)
    (hr : r < size) (hj : j < size) :
    (rotateRight size element r).testBit j = element.testBit ((j + r) % size) := by
  have low := div_two_pow_lt helement (Nat.le_of_lt hr)
  rw [rotateRight, Nat.add_comm, Nat.mul_comm, Nat.testBit_two_pow_mul_add _ low]
  split
  · rw [Nat.testBit_div_two_pow, Nat.mod_eq_of_lt (by omega)]
  · have wrapped : (j + r) % size = j - (size - r) := by
      rw [show j + r = j - (size - r) + size by omega, Nat.add_mod_right,
        Nat.mod_eq_of_lt (by omega)]
    rw [Nat.testBit_mod_two_pow, decide_eq_true (by omega), Bool.true_and, wrapped]

/-- The run of a value: its size is that of the smallest element, and its bits are those of the
element. -/
structure Describes (run : RotatedRun) (value k : Nat) : Prop where
  size : run.size = 2 ^ elementLog value k
  length_pos : 0 < run.length
  length_lt : run.length < run.size
  rotation_lt : run.rotation < run.size
  bit : ∀ i, run.bit i = (value % 2 ^ run.size).testBit (i % run.size)

/-- An element that has as many ones as bits has ones only. -/
theorem eq_of_ones_eq {n value : Nat} (h : Bits.ones n value = n) : value % 2 ^ n = 2 ^ n - 1 := by
  induction n generalizing value with
  | zero => rw [Nat.pow_zero, Nat.mod_one]
  | succ n ih =>
    have rest := ones_le n (value / 2)
    rw [Bits.ones] at h
    have half : value / 2 % 2 ^ n = 2 ^ n - 1 := ih (by omega)
    have pos := Nat.two_pow_pos n
    rw [Nat.pow_succ, Nat.mul_comm, Nat.mod_mul, half]
    omega

/-- A value whose element has ones only has ones only. -/
theorem eq_of_element_eq {value k : Nat} (hk : 1 ≤ k) (hvalue : value < 2 ^ 2 ^ k)
    (h : value % 2 ^ 2 ^ elementLog value k = 2 ^ 2 ^ elementLog value k - 1) :
    value = 2 ^ 2 ^ k - 1 := by
  refine Nat.eq_of_testBit_eq fun i => ?_
  rw [Nat.testBit_two_pow_sub_one]
  by_cases hi : i < 2 ^ k
  · rw [testBit_eq_element hk hvalue i hi, h, Nat.testBit_two_pow_sub_one,
      decide_eq_true (Nat.mod_lt i (Nat.two_pow_pos _)), decide_eq_true hi]
  · have above : value < 2 ^ i :=
      Nat.lt_of_lt_of_le hvalue (Nat.pow_le_pow_right (by decide) (by omega))
    rw [Nat.testBit_lt_two_pow above, decide_eq_false hi]

/-- Rotating to the right by what is missing to the size undoes a rotation to the right. -/
theorem bit_eq_testBit {size length element r : Nat} (hr : r < size)
    (helement : element < 2 ^ size) (h : rotateRight size element r = 2 ^ length - 1) (i : Nat) :
    bit { size, length, rotation := (size - r) % size } i = element.testBit (i % size) := by
  have hj : (i + (size - r) % size) % size < size := Nat.mod_lt _ (by omega)
  have back : ((i + (size - r) % size) % size + r) % size = i % size := by
    rcases Nat.eq_zero_or_pos r with rfl | pos
    · rw [Nat.sub_zero, Nat.mod_self, Nat.add_zero, Nat.add_zero, Nat.mod_mod]
    · rw [Nat.mod_eq_of_lt (show size - r < size by omega), Nat.mod_add_mod,
        show i + (size - r) + r = i + size by omega, Nat.add_mod_right]
  rw [← back, ← testBit_rotateRight helement hr hj, h, Nat.testBit_two_pow_sub_one]
  rfl

/-- The run that is found for a value is the run of the value. -/
theorem describes_of_ofValue? {value k : Nat} {run : RotatedRun} (hk : 1 ≤ k)
    (hvalue : value < 2 ^ 2 ^ k) (h : ofValue? value k = some run) : run.Describes value k := by
  have length_pos := length_pos_of_ofValue? hk hvalue h
  rw [ofValue?] at h
  split at h
  · cases h
  · next bounds =>
    obtain ⟨r, hfind, rfl⟩ := Option.map_eq_some_iff.1 h
    have hr : r < 2 ^ elementLog value k := List.mem_range.1 (List.mem_of_find?_eq_some hfind)
    have element := Nat.mod_lt value (Nat.two_pow_pos (2 ^ elementLog value k))
    refine ⟨rfl, length_pos, Nat.lt_of_le_of_ne (ones_le _ _) fun full => ?_,
      Nat.mod_lt _ (Nat.two_pow_pos _),
      bit_eq_testBit hr element (by simpa using List.find?_some hfind)⟩
    have ones := eq_of_ones_eq full
    rw [Nat.mod_mod] at ones
    exact bounds (.inr (eq_of_element_eq hk hvalue ones))

/-! ## The runs of an operation -/

section Fits

variable {run : RotatedRun} {width : Nat}

/-- A run that an operation of `width` bits can have: neither empty nor full, in an element of one
of six sizes. -/
structure Fits (run : RotatedRun) (width : Nat) : Prop where
  size : run.size ∈ [2, 4, 8, 16, 32, 64]
  size_le : run.size ≤ width
  length_pos : 0 < run.length
  length_lt : run.length < run.size
  rotation_lt : run.rotation < run.size

/-- Elements have a power of two of bits. -/
theorem mem_sizes_iff {size : Nat} :
    size ∈ [2, 4, 8, 16, 32, 64] ↔ ∃ e, 1 ≤ e ∧ e ≤ 6 ∧ size = 2 ^ e := by
  constructor
  · intro h
    simp only [List.mem_cons, List.not_mem_nil, or_false] at h
    rcases h with h | h | h | h | h | h
    · exact ⟨1, by decide, by decide, h⟩
    · exact ⟨2, by decide, by decide, h⟩
    · exact ⟨3, by decide, by decide, h⟩
    · exact ⟨4, by decide, by decide, h⟩
    · exact ⟨5, by decide, by decide, h⟩
    · exact ⟨6, by decide, by decide, h⟩
  · rintro ⟨e, he, he', rfl⟩
    have logs : e = 1 ∨ e = 2 ∨ e = 3 ∨ e = 4 ∨ e = 5 ∨ e = 6 := by omega
    rcases logs with rfl | rfl | rfl | rfl | rfl | rfl <;> decide

/-- The element of a run that fits is not empty. -/
theorem Fits.pos (h : run.Fits width) : 0 < run.size :=
  Nat.lt_trans h.length_pos h.length_lt

/-- The ones of a run fit its element. -/
theorem Fits.ones_lt (h : run.Fits width) : 2 ^ run.length - 1 < 2 ^ run.size :=
  Nat.lt_of_le_of_lt (Nat.sub_le _ _) (Nat.pow_lt_pow_right (by decide) h.length_lt)

/-- The element repeats. -/
theorem bit_add_of_dvd (run : RotatedRun) {n : Nat} (h : run.size ∣ n) (i : Nat) :
    run.bit (i + n) = run.bit i := by
  obtain ⟨c, rfl⟩ := h
  simp [bit, Nat.add_right_comm]

/-- The bits of a value that repeats a run. -/
theorem testBit_value (run : RotatedRun) (width i : Nat) :
    (run.value width).testBit i = (decide (i < width) && run.bit i) :=
  Bits.testBit_ofPredicate run.bit width i

/-- A rotation stays within the element. -/
theorem rotateRight_lt {size element r : Nat} (helement : element < 2 ^ size) (hr : r < size) :
    rotateRight size element r < 2 ^ size := by
  have split : 2 ^ size = 2 ^ r * 2 ^ (size - r) := by rw [← Nat.pow_add]; congr 1; omega
  have low := div_two_pow_lt helement (Nat.le_of_lt hr)
  have high : element % 2 ^ r + 1 ≤ 2 ^ r := Nat.mod_lt _ (Nat.two_pow_pos r)
  calc rotateRight size element r
      < 2 ^ (size - r) + element % 2 ^ r * 2 ^ (size - r) := Nat.add_lt_add_right low _
    _ = (element % 2 ^ r + 1) * 2 ^ (size - r) := by rw [Nat.add_mul, Nat.one_mul, Nat.add_comm]
    _ ≤ 2 ^ size := by rw [split]; exact Nat.mul_le_mul_right _ high

/-- A run of ones at bit 0 is rotated to the element. -/
theorem rotateRight_ones (h : run.Fits width) :
    rotateRight run.size (2 ^ run.length - 1) run.rotation = run.value run.size := by
  refine Nat.eq_of_testBit_eq fun j => ?_
  rw [testBit_value]
  by_cases hj : j < run.size
  · rw [testBit_rotateRight h.ones_lt h.rotation_lt hj, Nat.testBit_two_pow_sub_one,
      decide_eq_true hj, Bool.true_and, bit]
  · have small : rotateRight run.size (2 ^ run.length - 1) run.rotation < 2 ^ j :=
      Nat.lt_of_lt_of_le (rotateRight_lt h.ones_lt h.rotation_lt)
        (Nat.pow_le_pow_right (by decide) (by omega))
    rw [Nat.testBit_lt_two_pow small, decide_eq_false hj, Bool.false_and]

end Fits

/-! ## The fields of a run -/

/-- The number that spells the size of a run has the size as its highest power of two, and the
field of the length has the length below it. -/
theorem spelled_bounds {run : RotatedRun} {e : Nat} (hsize : run.size = 2 ^ e) (he : 1 ≤ e)
    (he' : e ≤ 6) (hpos : 0 < run.length) (hlength : run.length < run.size) :
    2 ^ e ≤ run.fields.n % 2 ^ 26 * 64 + (63 - run.fields.imms % 64) ∧
      run.fields.n % 2 ^ 26 * 64 + (63 - run.fields.imms % 64) < 2 ^ (e + 1) ∧
      run.fields.imms % run.size = run.length - 1 := by
  obtain ⟨size, length, rotation⟩ := run
  obtain rfl : size = 2 ^ e := hsize
  have sizes : e = 1 ∨ e = 2 ∨ e = 3 ∨ e = 4 ∨ e = 5 ∨ e = 6 := by omega
  rcases sizes with rfl | rfl | rfl | rfl | rfl | rfl <;>
    simp only [fields, Nat.reducePow, Nat.reduceMul, Nat.reduceSub, Nat.reduceMod, Nat.reduceAdd,
      Nat.reduceEqDiff, if_true, if_false] at hlength hpos ⊢ <;>
    omega

/-- The fields of a run stand for the run. -/
theorem run?_fields {run : RotatedRun} {e width : Nat} (hsize : run.size = 2 ^ e) (he : 1 ≤ e)
    (he' : e ≤ 6) (hwidth : run.size ≤ width) (hpos : 0 < run.length)
    (hlength : run.length < run.size) (hrotation : run.rotation < run.size) :
    run.fields.run? width = some run := by
  obtain ⟨lower, upper, imms⟩ := spelled_bounds hsize he he' hpos hlength
  have two : 2 ^ 1 ≤ 2 ^ e := Nat.pow_le_pow_right (by decide) he
  have log := (Nat.log2_eq_iff (by omega)).2 ⟨lower, upper⟩
  have immr : run.fields.immr % run.size = run.rotation := Nat.mod_eq_of_lt hrotation
  rw [Bitmask.run?, log, ← hsize, if_neg (by omega), imms, if_neg (by omega), immr,
    Nat.sub_add_cancel hpos]

end RotatedRun

namespace Bitmask

/-! ## The value of a run -/

section Decode

variable {run : RotatedRun}

/-- Doubling repeats the element once more. -/
theorem value_or_shiftLeft {e : Nat} (he : e < 6) (hsize : run.size ∣ 2 ^ e) :
    run.value (2 ^ e) ||| run.value (2 ^ e) * 2 ^ 2 ^ e % 2 ^ 64 = run.value (2 * 2 ^ e) := by
  have half : 2 ^ e ≤ 2 ^ 5 := Nat.pow_le_pow_right (by decide) (by omega)
  refine Nat.eq_of_testBit_eq fun i => ?_
  rw [Nat.testBit_or, ← Nat.shiftLeft_eq, Nat.testBit_mod_two_pow, Nat.testBit_shiftLeft]
  simp only [RotatedRun.testBit_value]
  by_cases low : i < 2 ^ e
  · simp [low, Nat.not_le.2 low, show i < 2 * 2 ^ e by omega]
  · obtain ⟨j, rfl⟩ : ∃ j, i = j + 2 ^ e := ⟨i - 2 ^ e, by omega⟩
    rw [run.bit_add_of_dvd hsize]
    by_cases high : j < 2 ^ e
    · simp [high, show j + 2 ^ e < 64 by omega, show j + 2 ^ e < 2 * 2 ^ e by omega]
    · have above : ¬ j + 2 ^ e < 2 * 2 ^ e := by omega
      simp [low, high, above]

/-- An element is repeated by doubling. -/
theorem repeated_eq {k : Nat} (hk : k ≤ 6) {n e : Nat} (hn : e + n = k) (hsize : run.size ∣ 2 ^ e) :
    repeated (2 ^ k) (run.value (2 ^ e)) (2 ^ e) = .ok (run.value (2 ^ k)) := by
  induction n generalizing e with
  | zero =>
    obtain rfl : e = k := hn
    rw [repeated, if_neg (by omega)]
    rfl
  | succ n ih =>
    have next : 2 ^ (e + 1) = 2 * 2 ^ e := by rw [Nat.pow_succ, Nat.mul_comm]
    have more : 2 ^ e < 2 ^ k := Nat.pow_lt_pow_right (by decide) (by omega)
    have short : 2 ^ e < 64 := Nat.lt_of_lt_of_le more (Nat.pow_le_pow_right (by decide) hk)
    rw [repeated, if_pos ⟨Nat.two_pow_pos e, more⟩, Bits.shiftLeft_of_lt short, ok_bind,
      value_or_shiftLeft (by omega) hsize, ← next]
    exact ih (by omega) (Nat.dvd_trans hsize (Nat.pow_dvd_pow 2 (Nat.le_succ e)))

/-- The widths of operations are powers of two already. -/
theorem filled_two_pow {k : Nat} (hk : k = 5 ∨ k = 6) : filled (2 ^ k) = 2 ^ k := by
  rcases hk with rfl | rfl <;> decide

/-- Fields that are not reserved stand for a run. -/
theorem fits_of_run? {b : Bitmask} {width : Nat} (hwidth : width ≤ 64)
    (h : b.run? width = some run) : run.Fits width := by
  rw [run?] at h
  split at h
  · cases h
  next spelled =>
  split at h
  · cases h
  next short =>
  obtain rfl := Option.some.inj h
  generalize b.n % 2 ^ 26 * 64 + (63 - b.imms % 64) = n at spelled short ⊢
  have log : 1 ≤ n.log2 := (Nat.le_log2 (by omega)).2 (by omega)
  have log' : n.log2 ≤ 6 := by
    by_contra large
    have : 2 ^ 7 ≤ 2 ^ n.log2 := Nat.pow_le_pow_right (by decide) (by omega)
    omega
  have pos := Nat.two_pow_pos n.log2
  have length := Nat.mod_lt b.imms pos
  refine ⟨RotatedRun.mem_sizes_iff.2 ⟨_, log, log', rfl⟩, ?_, ?_, ?_, Nat.mod_lt _ pos⟩
  · dsimp only
    omega
  · exact Nat.succ_pos _
  · dsimp only
    omega

/-- **The decoder of bitmask immediates does not trap.** For operations of 32 and 64 bits it answers
the value of the fields. -/
theorem decode_eq (b : Bitmask) {k : Nat} (hk : k = 5 ∨ k = 6) :
    b.decode (2 ^ k) = .ok (b.value? (2 ^ k)) := by
  have width : 2 ^ k ≤ 2 ^ 6 := Nat.pow_le_pow_right (by decide) (by omega)
  rw [decode, value?, filled_two_pow hk]
  cases hrun : b.run? (2 ^ k) with
  | none => rfl
  | some run =>
    have fits := fits_of_run? width hrun
    have size : run.size ≤ 64 := Nat.le_trans fits.size_le width
    have length := fits.length_lt
    have ones : (do Bits.difference (← Bits.shiftLeft 64 1 run.length) 1) =
        .ok (2 ^ run.length - 1) := by
      have mask := RotatedRun.lowOnes_eq (n := run.length) (by omega)
      rwa [RotatedRun.lowOnes, if_neg (by omega)] at mask
    obtain ⟨e, -, he, log⟩ := RotatedRun.mem_sizes_iff.1 fits.size
    have below : e ≤ k := (Nat.pow_le_pow_iff_right (by decide)).1 (log ▸ fits.size_le)
    dsimp only
    rw [RotatedRun.lowOnes_eq size, ok_bind, ← bind_assoc, ones, ok_bind,
      RotatedRun.rotate_eq size fits.ones_lt fits.rotation_lt, ok_bind,
      RotatedRun.rotateRight_ones fits, log,
      repeated_eq (by omega) (Nat.add_sub_cancel' below) (log ▸ Nat.dvd_refl _), ok_bind,
      Option.map_some]
    have short : run.value (2 ^ k) < 2 ^ 2 ^ k := Bits.ofPredicate_lt _ _
    split
    · next narrow =>
      rw [narrow] at short ⊢
      rw [Nat.mod_eq_of_lt short]
      rfl
    · rfl

end Decode

/-! ## Reading back -/

/-- The widths of operations are powers of two. -/
theorem exists_eq_two_pow {w : Nat} (hw : w = 32 ∨ w = 64) :
    ∃ k, (k = 5 ∨ k = 6) ∧ w = 2 ^ k := by
  rcases hw with rfl | rfl
  · exact ⟨5, .inl rfl, rfl⟩
  · exact ⟨6, .inr rfl, rfl⟩

/-- **What was encoded is read back**, as a number of the width of the operation.

**Proof sketch.** The value repeats its smallest element, and the element is a rotated run
(`AArch64.RotatedRun.describes_of_ofValue?`). The fields stand for the run
(`AArch64.RotatedRun.run?_fields`), whose bits are those of the value. -/
theorem value?_of_encode {value w : Nat} {b : Bitmask} (hw : w = 32 ∨ w = 64)
    (h : encode value w = .ok (some b)) : b.value? w = some (value % 2 ^ w) := by
  obtain ⟨k, hk, rfl⟩ := exists_eq_two_pow hw
  have small : value % 2 ^ 2 ^ k < 2 ^ 2 ^ k := Nat.mod_lt _ (Nat.two_pow_pos _)
  rw [encode_eq value hk] at h
  obtain ⟨run, hrun, rfl⟩ := Option.map_eq_some_iff.1 (Except.ok.inj h)
  have describes := RotatedRun.describes_of_ofValue? (by omega) small hrun
  have log := RotatedRun.elementLog_le (value % 2 ^ 2 ^ k) (k := k) (by omega)
  have width : run.size ≤ 2 ^ k := describes.size ▸ Nat.pow_le_pow_right (by decide) log
  rw [value?, RotatedRun.run?_fields describes.size (RotatedRun.elementLog_pos _ k) (by omega)
    width describes.length_pos describes.length_lt describes.rotation_lt, filled_two_pow hk,
    Option.map_some]
  refine congrArg some (Nat.eq_of_testBit_eq fun i => ?_)
  rw [RotatedRun.value, Bits.testBit_ofPredicate]
  by_cases hi : i < 2 ^ k
  · rw [decide_eq_true hi, Bool.true_and, describes.bit, describes.size,
      RotatedRun.testBit_eq_element (by omega) small i hi]
  · have above : value % 2 ^ 2 ^ k < 2 ^ i :=
      Nat.lt_of_lt_of_le small (Nat.pow_le_pow_right (by decide) (by omega))
    rw [decide_eq_false hi, Bool.false_and, Nat.testBit_lt_two_pow above]

end Bitmask

end AArch64
