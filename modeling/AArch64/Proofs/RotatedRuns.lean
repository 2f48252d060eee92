import AArch64.Proofs.Bitmasks
import Mathlib.Data.Nat.ModEq

/-!
# Which values are bitmask immediates

A value is a bitmask immediate if some run makes it: its bits are those of the run, repeated over
the operation. There is at most one such run, because the bits fall from one to zero once in every
element, at the end of the run, and rise once, at its start. The encoder finds the run by looking
for the smallest element and then for the rotation.

## Main definitions

* `AArch64.RotatedRun.Makes` — a value has the bits of a run.

## Main results

* `AArch64.RotatedRun.Makes.unique` — a value is made by one run at most.
* `AArch64.RotatedRun.ofValue?_eq_some_iff` — the search finds the run of a value.
* `AArch64.Bitmask.encode_iff_makes_and_decode` — the codec of bitmask immediates.
-/

set_option autoImplicit false

namespace AArch64

namespace RotatedRun

variable {run run' : RotatedRun} {value width k : Nat}

/-! ## The edges of a run -/

/-- The remainder of the next number. -/
theorem succ_mod_cases {n s : Nat} (hs : 0 < s) :
    (n + 1) % s = 0 ∧ n % s = s - 1 ∨ (n + 1) % s = n % s + 1 ∧ n % s + 1 < s := by
  have lt := Nat.mod_lt n hs
  have next : (n + 1) % s = (n % s + 1) % s := (Nat.mod_add_mod n s 1).symm
  by_cases last : n % s + 1 = s
  · exact .inl ⟨by rw [next, last, Nat.mod_self], by omega⟩
  · exact .inr ⟨by rw [next, Nat.mod_eq_of_lt (by omega)], by omega⟩

/-- A run ends where its last one is. -/
theorem falls_iff (h : run.Fits width) (i : Nat) :
    run.bit i = true ∧ run.bit (i + 1) = false ↔
      (i + run.rotation) % run.size = run.length - 1 := by
  have pos := h.length_pos
  have short := h.length_lt
  have shift : i + 1 + run.rotation = i + run.rotation + 1 := by omega
  rw [bit, bit, decide_eq_true_iff, decide_eq_false_iff_not, shift]
  rcases succ_mod_cases (n := i + run.rotation) h.pos with next | next <;> omega

/-- A run begins where the rotation puts bit 0. -/
theorem rises_iff (h : run.Fits width) (i : Nat) :
    run.bit i = false ∧ run.bit (i + 1) = true ↔ (i + run.rotation) % run.size = run.size - 1 := by
  have pos := h.length_pos
  have short := h.length_lt
  have shift : i + 1 + run.rotation = i + run.rotation + 1 := by omega
  rw [bit, bit, decide_eq_true_iff, decide_eq_false_iff_not, shift]
  rcases succ_mod_cases (n := i + run.rotation) h.pos with next | next <;> omega

/-- The places of one remainder. -/
theorem exists_mod_eq {s r j : Nat} (hr : r < s) (hj : j < s) : ∃ i, (i + r) % s = j := by
  refine ⟨j + (s - r), ?_⟩
  rw [show j + (s - r) + r = j + s by omega, Nat.add_mod_right, Nat.mod_eq_of_lt hj]

/-- Some bit is the last one of a run. -/
theorem exists_last (h : run.Fits width) : ∃ i, (i + run.rotation) % run.size = run.length - 1 :=
  exists_mod_eq h.rotation_lt (Nat.lt_of_le_of_lt (Nat.sub_le _ 1) h.length_lt)

/-- Bits that repeat have edges that repeat, so the size of the run divides every period. -/
theorem size_dvd_of_periodic {n : Nat} (h : run.Fits width)
    (hperiod : ∀ i, run.bit (i + n) = run.bit i) : run.size ∣ n := by
  obtain ⟨i, hi⟩ := exists_last h
  have falls := (falls_iff h i).2 hi
  have again : run.bit (i + n) = true ∧ run.bit (i + n + 1) = false := by
    rwa [Nat.add_right_comm, hperiod, hperiod]
  rw [falls_iff h, Nat.add_right_comm, ← hi] at again
  have difference := Nat.sub_mod_eq_zero_of_mod_eq again
  rw [Nat.add_sub_cancel_left] at difference
  exact Nat.dvd_of_mod_eq_zero difference

/-- Runs with the same bits are the same. -/
theorem eq_of_bit_eq (h : run.Fits width) (h' : run'.Fits width) (hbits : run.bit = run'.bit) :
    run = run' := by
  have size : run.size = run'.size :=
    Nat.dvd_antisymm
      (size_dvd_of_periodic h fun i => hbits ▸ run'.bit_add_of_dvd (Nat.dvd_refl _) i)
      (size_dvd_of_periodic h' fun i => hbits ▸ run.bit_add_of_dvd (Nat.dvd_refl _) i)
  have rotation : run.rotation = run'.rotation := by
    obtain ⟨i, hi⟩ := exists_mod_eq h.rotation_lt (Nat.sub_lt h.pos Nat.one_pos)
    have rises := (rises_iff h i).2 hi
    rw [hbits, rises_iff h', ← size] at rises
    have residue : run.rotation % run.size = run'.rotation % run.size :=
      Nat.ModEq.add_left_cancel' i (hi.trans rises.symm)
    rwa [Nat.mod_eq_of_lt h.rotation_lt, Nat.mod_eq_of_lt (size ▸ h'.rotation_lt)] at residue
  have length : run.length = run'.length := by
    have pos := h.length_pos
    have pos' := h'.length_pos
    obtain ⟨i, hi⟩ := exists_last h
    have falls := (falls_iff h i).2 hi
    rw [hbits, falls_iff h', ← size, ← rotation, hi] at falls
    omega
  cases run
  cases run'
  cases size
  cases length
  cases rotation
  rfl

/-! ## The element of a run -/

/-- A value that repeats after `2 ^ e` bits has no wider element. -/
theorem elementLog_le_of_periodic {e : Nat} (he : 1 ≤ e) (hek : e ≤ k)
    (hperiod : ∀ i < 2 ^ k, value.testBit i = value.testBit (i % 2 ^ e)) :
    elementLog value k ≤ e := by
  fun_induction elementLog value k with
  | case1 => omega
  | case2 => omega
  | case3 value k half agree ih =>
    by_cases whole : e = k + 2
    · have := elementLog_le (value % half) (k := k + 1) (by omega)
      omega
    · have double : 2 ^ (k + 2) = 2 ^ (k + 1) * 2 := Nat.pow_succ 2 (k + 1)
      refine ih (by omega) fun i hi => ?_
      have low : i % 2 ^ e < 2 ^ (k + 1) :=
        Nat.lt_of_lt_of_le (Nat.mod_lt i (Nat.two_pow_pos e))
          (Nat.pow_le_pow_right (by decide) (by omega))
      rw [Nat.testBit_mod_two_pow, Nat.testBit_mod_two_pow, decide_eq_true hi, decide_eq_true low,
        hperiod i (by omega)]
  | case4 value k half differ =>
    by_contra narrow
    -- the halves of the value agree
    refine differ (Nat.eq_of_testBit_eq fun i => ?_)
    have double : 2 ^ (k + 2) = 2 ^ (k + 1) * 2 := Nat.pow_succ 2 (k + 1)
    rw [Nat.testBit_mod_two_pow, Nat.testBit_mod_two_pow, Nat.testBit_div_two_pow]
    by_cases hi : i < 2 ^ (k + 1)
    · have repeats : (i + 2 ^ (k + 1)) % 2 ^ e = i % 2 ^ e := by
        obtain ⟨n, hn⟩ : 2 ^ e ∣ 2 ^ (k + 1) := Nat.pow_dvd_pow 2 (by omega)
        rw [hn, Nat.add_mul_mod_self_left]
      rw [hperiod (i + 2 ^ (k + 1)) (by omega), repeats, ← hperiod i (by omega)]
    · rw [decide_eq_false hi, Bool.false_and, Bool.false_and]

/-! ## Counting -/

/-- The bits of a number are those of its low part and those of its high part. -/
theorem ones_add (a b value : Nat) :
    Bits.ones (a + b) value = Bits.ones a value + Bits.ones b (value / 2 ^ a) := by
  induction a generalizing value with
  | zero => simp [Bits.ones]
  | succ a ih =>
    rw [Nat.add_right_comm, Bits.ones, Bits.ones, ih, Nat.div_div_eq_div_mul, Nat.pow_succ,
      Nat.mul_comm 2, Nat.add_assoc]

/-- Bits from the width on are not counted. -/
theorem ones_mod (n value : Nat) : Bits.ones n (value % 2 ^ n) = Bits.ones n value := by
  induction n generalizing value with
  | zero => rfl
  | succ n ih =>
    have split : value % 2 ^ (n + 1) = value % 2 + 2 * (value / 2 % 2 ^ n) := by
      rw [Nat.pow_succ, Nat.mul_comm, Nat.mod_mul]
    have low : value % 2 ^ (n + 1) % 2 = value % 2 := by omega
    have high : value % 2 ^ (n + 1) / 2 = value / 2 % 2 ^ n := by omega
    rw [Bits.ones, low, high, ih, Bits.ones]

/-- A rotation keeps the number of ones. -/
theorem ones_rotateRight {size element r : Nat} (helement : element < 2 ^ size) (hr : r < size) :
    Bits.ones size (rotateRight size element r) = Bits.ones size element := by
  have low := div_two_pow_lt helement (Nat.le_of_lt hr)
  have upper : rotateRight size element r / 2 ^ (size - r) = element % 2 ^ r := by
    rw [rotateRight, Nat.add_mul_div_right _ _ (Nat.two_pow_pos _), Nat.div_eq_of_lt low,
      Nat.zero_add]
  have lower : rotateRight size element r % 2 ^ (size - r) = element / 2 ^ r := by
    rw [rotateRight, Nat.add_mul_mod_self_right, Nat.mod_eq_of_lt low]
  calc Bits.ones size (rotateRight size element r)
      = Bits.ones (size - r + r) (rotateRight size element r) := by
        rw [Nat.sub_add_cancel (Nat.le_of_lt hr)]
    _ = Bits.ones (size - r) (element / 2 ^ r) + Bits.ones r element := by
        rw [ones_add, upper, ones_mod, ← ones_mod, lower]
    _ = Bits.ones (r + (size - r)) element := by rw [ones_add, Nat.add_comm]
    _ = Bits.ones size element := by rw [Nat.add_sub_cancel' (Nat.le_of_lt hr)]

/-- A run of ones has as many as it is long. -/
theorem ones_two_pow_sub_one {n length : Nat} (h : length ≤ n) :
    Bits.ones n (2 ^ length - 1) = length := by
  induction n generalizing length with
  | zero => exact (Nat.le_zero.1 h).symm
  | succ n ih =>
    cases length with
    | zero =>
      have none := ih (Nat.zero_le n)
      simpa [Bits.ones] using none
    | succ length =>
      have pos := Nat.two_pow_pos length
      have odd : (2 ^ (length + 1) - 1) % 2 = 1 := by rw [Nat.pow_succ]; omega
      have half : (2 ^ (length + 1) - 1) / 2 = 2 ^ length - 1 := by rw [Nat.pow_succ]; omega
      rw [Bits.ones, odd, half, ih (by omega), Nat.add_comm]

/-! ## The run of a value -/

/-- The ones of an element are those of its run. -/
theorem ones_value_size (h : run.Fits width) :
    Bits.ones run.size (run.value run.size) = run.length := by
  rw [← rotateRight_ones h, ones_rotateRight h.ones_lt h.rotation_lt,
    ones_two_pow_sub_one (Nat.le_of_lt h.length_lt)]

/-- What is missing from a rotation to the size brings the run back to bit 0. -/
theorem rotateRight_value (h : run.Fits width) :
    rotateRight run.size (run.value run.size) ((run.size - run.rotation) % run.size) =
      2 ^ run.length - 1 := by
  have hr : (run.size - run.rotation) % run.size < run.size := Nat.mod_lt _ h.pos
  have element : run.value run.size < 2 ^ run.size := Bits.ofPredicate_lt _ _
  refine Nat.eq_of_testBit_eq fun j => ?_
  rw [Nat.testBit_two_pow_sub_one]
  by_cases hj : j < run.size
  · have back : ((j + (run.size - run.rotation) % run.size) % run.size + run.rotation) % run.size =
        j := by
      have rotation := h.rotation_lt
      rw [Nat.add_mod_mod, Nat.mod_add_mod,
        show j + (run.size - run.rotation) + run.rotation = j + run.size by omega,
        Nat.add_mod_right, Nat.mod_eq_of_lt hj]
    rw [testBit_rotateRight element hr hj, testBit_value, decide_eq_true (Nat.mod_lt _ h.pos),
      Bool.true_and, bit, back]
  · have length := h.length_lt
    have small := Nat.lt_of_lt_of_le (rotateRight_lt element hr)
      (Nat.pow_le_pow_right (n := 2) (by decide) (Nat.not_lt.1 hj))
    rw [Nat.testBit_lt_two_pow small, decide_eq_false (by omega)]

/-- The fields of a run have room in an instruction. -/
theorem Fits.fields_lt (h : run.Fits width) (hwidth : width ≤ 64) :
    run.fields.n ≤ 1 ∧ run.fields.immr < 64 ∧ run.fields.imms < 64 := by
  have size := h.size_le
  have length := h.length_lt
  have rotation := h.rotation_lt
  have sizes := h.size
  simp only [List.mem_cons, List.not_mem_nil, or_false] at sizes
  refine ⟨?_, Nat.lt_of_lt_of_le rotation (size.trans hwidth), ?_⟩
  · rw [fields]
    dsimp only
    split <;> omega
  · rw [fields]
    dsimp only
    omega

/-- A value with the bits of a run, at the width of an operation. -/
def Makes (run : RotatedRun) (value width : Nat) : Prop :=
  run.Fits width ∧ ∀ i < width, value.testBit i = run.bit i

/-- The size of an element divides the width. -/
theorem size_dvd (h : run.Fits (2 ^ k)) : run.size ∣ 2 ^ k := by
  obtain ⟨e, -, -, size⟩ := mem_sizes_iff.1 h.size
  have le := (Nat.pow_le_pow_iff_right (by decide)).1 (size ▸ h.size_le)
  exact size ▸ Nat.pow_dvd_pow 2 le

namespace Makes

/-- The bits of the value repeat those of the run. -/
theorem testBit_mod (h : run.Makes value (2 ^ k)) (i : Nat) :
    value.testBit (i % 2 ^ k) = run.bit i := by
  have period := Nat.mod_add_div i (2 ^ k)
  rw [h.2 _ (Nat.mod_lt i (Nat.two_pow_pos k)), ← run.bit_add_of_dvd
    (Nat.dvd_mul_right_of_dvd (size_dvd h.1) (i / 2 ^ k)), period]

/-- A value is made by one run at most. -/
theorem unique (h : run.Makes value (2 ^ k)) (h' : run'.Makes value (2 ^ k)) : run = run' :=
  eq_of_bit_eq h.1 h'.1 (funext fun i => (h.testBit_mod i).symm.trans (h'.testBit_mod i))

/-- The element of the value is that of the run. -/
theorem elementLog_eq {e : Nat} (h : run.Makes value (2 ^ k)) (hvalue : value < 2 ^ 2 ^ k)
    (hk : 1 ≤ k) (he : 1 ≤ e) (hsize : run.size = 2 ^ e) : elementLog value k = e := by
  have le : e ≤ k := (Nat.pow_le_pow_iff_right (by decide)).1 (hsize ▸ h.1.size_le)
  refine Nat.le_antisymm (elementLog_le_of_periodic he le fun i hi => ?_) ?_
  · have low : i % 2 ^ e < 2 ^ k :=
      Nat.lt_of_lt_of_le (Nat.mod_lt i (Nat.two_pow_pos e)) (Nat.pow_le_pow_right (by decide) le)
    rw [h.2 i hi, h.2 _ low, bit, bit, hsize, Nat.mod_add_mod]
  · -- the bits of the run repeat with the element of the value
    have repeats : ∀ i, run.bit i =
        (value % 2 ^ 2 ^ elementLog value k).testBit (i % 2 ^ elementLog value k) := by
      intro i
      have inner : 2 ^ elementLog value k ∣ 2 ^ k := Nat.pow_dvd_pow 2 (elementLog_le value hk)
      rw [← h.testBit_mod, testBit_eq_element hk hvalue _ (Nat.mod_lt i (Nat.two_pow_pos k)),
        Nat.mod_mod_of_dvd i inner]
    have period := size_dvd_of_periodic (n := 2 ^ elementLog value k) h.1 fun i => by
      rw [repeats, repeats, Nat.add_mod_right]
    rw [hsize] at period
    exact (Nat.pow_le_pow_iff_right (by decide)).1 (Nat.le_of_dvd (Nat.two_pow_pos _) period)

/-- A value that a run makes has bits of both kinds. -/
theorem bounds (h : run.Makes value (2 ^ k)) : value ≠ 0 ∧ value ≠ 2 ^ 2 ^ k - 1 := by
  obtain ⟨i, hi⟩ := exists_last h.1
  obtain ⟨one, zero⟩ := (falls_iff h.1 i).2 hi
  rw [← h.testBit_mod] at one zero
  constructor
  · rintro rfl
    rw [Nat.zero_testBit] at one
    cases one
  · rintro rfl
    rw [Nat.testBit_two_pow_sub_one, decide_eq_true (Nat.mod_lt _ (Nat.two_pow_pos k))] at zero
    cases zero

end Makes

/-- The run of a value makes it. -/
theorem makes_of_ofValue? (hk : 1 ≤ k) (hk' : k ≤ 6) (hvalue : value < 2 ^ 2 ^ k)
    (h : ofValue? value k = some run) : run.Makes value (2 ^ k) := by
  have describes := describes_of_ofValue? hk hvalue h
  have log := elementLog_le value hk
  refine ⟨⟨mem_sizes_iff.2 ⟨_, elementLog_pos value k, by omega, describes.size⟩, ?_,
    describes.length_pos, describes.length_lt, describes.rotation_lt⟩, fun i hi => ?_⟩
  · rw [describes.size]
    exact Nat.pow_le_pow_right (by decide) log
  · rw [describes.bit, describes.size, ← testBit_eq_element hk hvalue i hi]

/-- **The search finds the run of a value** if there is one. -/
theorem ofValue?_eq_some_iff (hk : 1 ≤ k) (hk' : k ≤ 6) (hvalue : value < 2 ^ 2 ^ k) :
    ofValue? value k = some run ↔ run.Makes value (2 ^ k) := by
  refine ⟨makes_of_ofValue? hk hk' hvalue, fun h => ?_⟩
  obtain ⟨found, hfound⟩ : ∃ found, ofValue? value k = some found := by
    obtain ⟨e, he, -, size⟩ := mem_sizes_iff.1 h.1.size
    have element : value % 2 ^ run.size = run.value run.size := by
      refine Nat.eq_of_testBit_eq fun j => ?_
      rw [Nat.testBit_mod_two_pow, testBit_value]
      by_cases hj : j < run.size
      · rw [h.2 j (Nat.lt_of_lt_of_le hj h.1.size_le)]
      · rw [decide_eq_false hj, Bool.false_and, Bool.false_and]
    rw [ofValue?, if_neg (not_or.2 h.bounds), h.elementLog_eq hvalue hk he size, ← size]
    dsimp only
    rw [element, ones_value_size h.1]
    cases hfind : (List.range run.size).find? _ with
    | some r => exact ⟨_, rfl⟩
    | none =>
      have found := decide_eq_true (rotateRight_value h.1)
      exact absurd found (List.find?_eq_none.1 hfind _ (List.mem_range.2 (Nat.mod_lt _ h.1.pos)))
  rw [hfound, (makes_of_ofValue? hk hk' hvalue hfound).unique h]

end RotatedRun

namespace Bitmask

variable {run : RotatedRun} {value k : Nat}

/-! ## The codec -/

/-- The fields of a run are those that stand for it, up to turns of the whole element. -/
theorem fields_of_run? {b : Bitmask} {width : Nat} (hwidth : width ≤ 64) (hn : b.n ≤ 1)
    (himms : b.imms < 64) (h : b.run? width = some run) :
    run.fields = { b with immr := b.immr % run.size } := by
  obtain ⟨e, he, he', size⟩ := RotatedRun.mem_sizes_iff.1 (fits_of_run? hwidth h).size
  obtain ⟨n, immr, imms⟩ := b
  dsimp only at hn himms
  rw [run?] at h
  dsimp only at h
  rw [Nat.mod_eq_of_lt (show n < 2 ^ 26 by omega), Nat.mod_eq_of_lt himms] at h
  split at h
  · cases h
  next spelled =>
  split at h
  · cases h
  obtain rfl := Option.some.inj h
  have lower := Nat.log2_self_le (n := n * 64 + (63 - imms)) (by omega)
  have upper := Nat.lt_log2_self (n := n * 64 + (63 - imms))
  have log : (n * 64 + (63 - imms)).log2 = e := Nat.pow_right_injective (Nat.le_refl 2) size
  rw [log] at lower upper
  simp only [RotatedRun.fields, log, mk.injEq, true_and]
  have logs : e = 1 ∨ e = 2 ∨ e = 3 ∨ e = 4 ∨ e = 5 ∨ e = 6 := by omega
  rcases logs with rfl | rfl | rfl | rfl | rfl | rfl <;>
    simp only [Nat.reducePow, Nat.reduceMul, Nat.reduceSub, Nat.reduceMod, Nat.reduceAdd,
      Nat.reduceEqDiff, if_true, if_false] at lower upper ⊢ <;>
    omega

/-- Bits outside the operation do not count. -/
theorem makes_mod : run.Makes (value % 2 ^ 2 ^ k) (2 ^ k) ↔ run.Makes value (2 ^ k) := by
  refine and_congr_right fun _ => forall₂_congr fun i hi => ?_
  rw [Nat.testBit_mod_two_pow, decide_eq_true hi, Bool.true_and]

/-- The encoder answers the fields of the run that makes the value. -/
theorem encode_eq_some_iff (hk : k = 5 ∨ k = 6) {b : Bitmask} :
    encode value (2 ^ k) = .ok (some b) ↔
      ∃ run : RotatedRun, run.Makes value (2 ^ k) ∧ run.fields = b := by
  have small : value % 2 ^ 2 ^ k < 2 ^ 2 ^ k := Nat.mod_lt _ (Nat.two_pow_pos _)
  rw [encode_eq value hk, Except.ok.injEq, Option.map_eq_some_iff]
  refine exists_congr fun run => and_congr_left fun _ => ?_
  rw [RotatedRun.ofValue?_eq_some_iff (by omega) (by omega) small, makes_mod]

/-- What is encoded for a run is read back as the value that the run makes. -/
theorem encode_and_decode_of_makes (hk : k = 5 ∨ k = 6) (h : run.Makes value (2 ^ k)) :
    encode value (2 ^ k) = .ok (some run.fields) ∧
      decode run.fields (2 ^ k) = .ok (some (value % 2 ^ 2 ^ k)) := by
  have width : 2 ^ k = 32 ∨ 2 ^ k = 64 := by
    rcases hk with rfl | rfl
    · exact .inl rfl
    · exact .inr rfl
  have encoded : encode value (2 ^ k) = .ok (some run.fields) :=
    (encode_eq_some_iff hk).2 ⟨run, h, rfl⟩
  exact ⟨encoded, by rw [decode_eq _ hk, value?_of_encode width encoded]⟩

/-- What is decoded is made by the run that the fields stand for. -/
theorem makes_of_value? (hk : k = 5 ∨ k = 6) {b : Bitmask} (h : b.value? (2 ^ k) = some value) :
    ∃ run : RotatedRun, b.run? (2 ^ k) = some run ∧ run.Makes value (2 ^ k) := by
  have narrow : 2 ^ k ≤ 2 ^ 6 := Nat.pow_le_pow_right (by decide) (by omega)
  rw [value?, filled_two_pow hk] at h
  obtain ⟨run, hrun, rfl⟩ := Option.map_eq_some_iff.1 h
  refine ⟨run, hrun, fits_of_run? narrow hrun, fun i hi => ?_⟩
  rw [RotatedRun.testBit_value, decide_eq_true hi, Bool.true_and]

/-- **The codec of bitmask immediates.** For operations of 32 and 64 bits neither direction traps,
and

* a value has fields exactly if a run makes it;
* there is one such run then, the fields spell it, and they are read back as the value at the width
  of the operation;
* fields that are read as a value are those of the value, up to turns of the whole element.

**Proof sketch.** The search answers the run that makes the value
(`AArch64.RotatedRun.ofValue?_eq_some_iff`), of which there is one
(`AArch64.RotatedRun.Makes.unique`). Fields that are not reserved stand for a run that makes their
value, so the value is encoded as that run, which has the same fields
(`AArch64.Bitmask.fields_of_run?`). -/
theorem encode_iff_makes_and_decode (value : Nat) {w : Nat} (hw : w = 32 ∨ w = 64) :
    (∃ b? : Option Bitmask, encode value w = .ok b? ∧
      (b?.isSome ↔ ∃ run : RotatedRun, run.Makes value w)) ∧
    (∀ run : RotatedRun, run.Makes value w →
      (∀ run' : RotatedRun, run'.Makes value w → run' = run) ∧
        encode value w = .ok (some run.fields) ∧
        decode run.fields w = .ok (some (value % 2 ^ w))) ∧
    ∀ b : Bitmask, ∃ v? : Option Nat, decode b w = .ok v? ∧
      ∀ v, v? = some v → b.n ≤ 1 → b.imms < 64 →
        ∃ run : RotatedRun, run.Makes v w ∧
          encode v w = .ok (some { b with immr := b.immr % run.size }) := by
  obtain ⟨k, hk, rfl⟩ := exists_eq_two_pow hw
  have narrow : 2 ^ k ≤ 2 ^ 6 := Nat.pow_le_pow_right (by decide) (by omega)
  refine ⟨⟨_, encode_eq value hk, ?_⟩, fun run h => ⟨fun run' h' => h'.unique h,
    encode_and_decode_of_makes hk h⟩, fun b => ⟨_, decode_eq b hk, fun v hv hn himms => ?_⟩⟩
  · rw [Option.isSome_iff_exists]
    constructor
    · rintro ⟨b, hb⟩
      obtain ⟨run, h, -⟩ := (encode_eq_some_iff hk).1 (by rw [encode_eq value hk, hb])
      exact ⟨run, h⟩
    · rintro ⟨run, h⟩
      have encoded := (encode_and_decode_of_makes hk h).1
      rw [encode_eq value hk] at encoded
      exact ⟨_, Except.ok.inj encoded⟩
  · obtain ⟨run, hrun, h⟩ := makes_of_value? hk hv
    refine ⟨run, h, ?_⟩
    rw [(encode_and_decode_of_makes hk h).1, fields_of_run? narrow hn himms hrun]

/-- A run that wraps around its element: four ones at the top of 32 bits and four at the bottom. -/
theorem encode_iff_makes_and_decode_wrapped :
    (⟨32, 8, 4⟩ : RotatedRun).Makes 0xf000000f 32 ∧
      encode 0xf000000f 32 = .ok (some ⟨0, 4, 7⟩) ∧
      decode ⟨0, 4, 7⟩ 32 = .ok (some 0xf000000f) ∧
      ∃ run : RotatedRun, run.Makes 0xf000000f 32 ∧
        encode 0xf000000f 32 = .ok (some ⟨0, 36 % run.size, 7⟩) := by
  have makes : (⟨32, 8, 4⟩ : RotatedRun).Makes 0xf000000f 32 :=
    ⟨⟨by decide, by decide, by decide, by decide, by decide⟩, by decide⟩
  obtain ⟨-, codec, back⟩ := encode_iff_makes_and_decode 0xf000000f (.inl rfl : 32 = 32 ∨ 32 = 64)
  obtain ⟨-, encoded, decoded⟩ := codec _ makes
  obtain ⟨v?, hv, rest⟩ := back ⟨0, 36, 7⟩
  have read : v? = some 0xf000000f := by
    rw [decode_eq ⟨0, 36, 7⟩ (k := 5) (.inl rfl)] at hv
    rw [← Except.ok.inj hv]
    decide
  exact ⟨makes, encoded, decoded, rest _ read (by decide) (by decide)⟩

end Bitmask

end AArch64
