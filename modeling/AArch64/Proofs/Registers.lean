import AArch64.Proofs.Sampler
import AArch64.Register.Set

/-!
# Registers as they are built, and sets of them

A register is built as a general-purpose register, the zero register or the stack pointer. Its field
holds its number, and a set knows it by its code alone.

## Main definitions

* `AArch64.Register.IsBuilt` — a register as it is meant to be built.
* `AArch64.Register.number` — what the field of a register holds.
* `AArch64.RegisterSet.IsProper` — a set of general-purpose registers only.

## Main results

* `AArch64.Register.IsBuilt.toNat_field` — the field of a register holds its number.
* `AArch64.RegisterSet.contains_of_first?`, `AArch64.RegisterSet.le_of_contains` — the first number
  of a set is that of a member, and no member comes before it.
* `AArch64.RegisterSet.isProper_iff_exists_ofList` — the proper sets are those that can be listed.
* `AArch64.RegisterSet.IsProper.exists_of_first?` — the first number of a proper set is that of a
  register.
-/

set_option autoImplicit false

namespace AArch64

namespace Register

/-- A general-purpose register, the zero register or the stack pointer, in some view. -/
def IsBuilt (r : Register) : Prop :=
  (∃ n, general? n r.view = some r) ∨ r = zero r.view ∨ r = stack r.view

/-- What a register field holds for a register: its number, and 31 for the zero register and the
stack pointer. -/
def number (r : Register) : Nat :=
  if r.isGeneral then r.code.toNat else 31

variable {r : Register}

/-- A general-purpose register has the number that it was made from. -/
theorem code_of_general? {n : Nat} {view : RegisterView} (h : general? n view = some r) :
    r.code.toNat = n ∧ n < 31 ∧ r.view = view := by
  rw [general?] at h
  split at h
  · next hlt =>
    have hlt : n < 31 := hlt
    rw [← Option.some.inj h, BitVec.toNat_ofNat]
    exact ⟨by omega, hlt, rfl⟩
  · cases h

/-- A general-purpose register is built. -/
theorem isBuilt_of_general? {n : Nat} {view : RegisterView} (h : general? n view = some r) :
    r.IsBuilt :=
  .inl ⟨n, (code_of_general? h).2.2 ▸ h⟩

/-- The zero register is built. -/
theorem isBuilt_zero (view : RegisterView) : (zero view).IsBuilt :=
  .inr (.inl rfl)

/-- The stack pointer is built. -/
theorem isBuilt_stack (view : RegisterView) : (stack view).IsBuilt :=
  .inr (.inr rfl)

/-- The link register is built. -/
theorem isBuilt_link (view : RegisterView) : (link view).IsBuilt :=
  .inl ⟨30, rfl⟩

/-- The codes of registers as they are built. -/
theorem IsBuilt.code_cases (h : r.IsBuilt) :
    r.isGeneral = true ∨ r.isZero = true ∨ r.isStack = true := by
  rcases h with ⟨n, hn⟩ | h | h
  · obtain ⟨hcode, hlt, -⟩ := code_of_general? hn
    exact .inl (r.isGeneral_iff.2 (by omega))
  · rw [h]
    exact .inr (.inl rfl)
  · rw [h]
    exact .inr (.inr rfl)

/-- What is built and no general-purpose register is the zero register or the stack pointer. -/
theorem IsBuilt.isZero_or_isStack (h : r.IsBuilt) (hr : ¬ r.isGeneral) : r.isZero ∨ r.isStack :=
  h.code_cases.resolve_left hr

/-- A number from 0 to 30 is that of a general-purpose register. -/
theorem isGeneral_iff_number_lt : r.isGeneral ↔ r.number < 31 := by
  rw [number]
  split
  · next h => exact iff_of_true h (r.isGeneral_iff.1 h)
  · next h => exact iff_of_false h (lt_irrefl 31)

/-- The codes from 31 on are none of general-purpose registers. -/
theorem code_ne_of_isGeneral (h : r.isGeneral) {code : BitVec 8} (hcode : 31 ≤ code.toNat) :
    r.code ≠ code := by
  have lt := r.isGeneral_iff.1 h
  rintro rfl
  omega

/-- A general-purpose register is not the zero register. -/
theorem isZero_of_isGeneral (h : r.isGeneral) : r.isZero = false :=
  decide_eq_false (code_ne_of_isGeneral h (by decide))

/-- A general-purpose register is not the stack pointer. -/
theorem isStack_of_isGeneral (h : r.isGeneral) : r.isStack = false :=
  decide_eq_false (code_ne_of_isGeneral h (by decide))

/-- The stack pointer is not the zero register. -/
theorem isZero_of_isStack (h : r.isStack) : r.isZero = false := by
  simp only [isStack, decide_eq_true_eq] at h
  rw [isZero, h]
  rfl

/-- A general-purpose register is built from its number, in every view. -/
theorem general?_of_isGeneral (h : r.isGeneral) (view : RegisterView) :
    general? r.code.toNat view = some (r.withView view) := by
  have lt := r.isGeneral_iff.1 h
  simp only [general?, generalCount, if_pos lt, BitVec.ofNat_toNat, BitVec.setWidth_eq, withView]

/-- A register with the number of a general-purpose one is built. -/
theorem isBuilt_of_isGeneral (h : r.isGeneral) : r.IsBuilt :=
  .inl ⟨_, general?_of_isGeneral h r.view⟩

/-- Operations have 32 or 64 bits. -/
theorem exists_width_eq (r : Register) : ∃ k, (k = 5 ∨ k = 6) ∧ r.width = 2 ^ k := by
  rw [width]
  split
  · exact ⟨6, .inr rfl, rfl⟩
  · exact ⟨5, .inl rfl, rfl⟩

/-- Registers have 32 bits or 64 bits. -/
theorem width_eq_or (r : Register) : r.width = 32 ∨ r.width = 64 := by
  rw [width]
  split
  · exact .inr rfl
  · exact .inl rfl

/-- Registers have bits. -/
theorem width_pos (r : Register) : 0 < r.width := by
  rcases r.width_eq_or with h | h <;> omega

/-- Registers have at most 64 bits. -/
theorem width_le (r : Register) : r.width ≤ 64 := by
  rcases r.width_eq_or with h | h <;> omega

/-- Another view of a register is built as the register is. -/
theorem IsBuilt.withView (h : r.IsBuilt) (view : RegisterView) : (r.withView view).IsBuilt := by
  rcases h with ⟨n, hn⟩ | h | h
  · refine .inl ⟨n, ?_⟩
    rw [general?] at hn ⊢
    split at hn
    · next hlt =>
      rw [if_pos hlt, ← Option.some.inj hn]
      rfl
    · cases hn
  · rw [h]
    exact .inr (.inl rfl)
  · rw [h]
    exact .inr (.inr rfl)

/-- The field of a register holds its number. -/
theorem IsBuilt.toNat_field (h : r.IsBuilt) : r.field.toNat = r.number := by
  rw [field, BitVec.toNat_setWidth, number]
  rcases h.code_cases with hgeneral | hzero | hstack
  · have lt := r.isGeneral_iff.1 hgeneral
    rw [if_pos hgeneral]
    omega
  · have code : r.code = zeroCode := of_decide_eq_true hzero
    simp [isGeneral, code, zeroCode, generalCount]
  · have code : r.code = stackCode := of_decide_eq_true hstack
    simp [isGeneral, code, stackCode, generalCount]

end Register

namespace RegisterSet

variable {s : RegisterSet} {q r : Register}

/-- A set knows a register by its code. -/
theorem contains_congr (s : RegisterSet) (h : q.code = r.code) : s.contains q = s.contains r := by
  rw [contains, contains, Register.isGeneral, Register.isGeneral, h]

/-- A member is a general-purpose register. -/
theorem isGeneral_of_contains (h : s.contains r) : r.isGeneral :=
  (Bool.and_eq_true_iff.1 h).1

/-- What is left after a register was taken out was there before. -/
theorem contains_of_contains_erase (h : (s.erase q).contains r) : s.contains r := by
  rw [contains_erase, Bool.and_eq_true] at h
  exact h.1

/-- The first number of a set is that of a member. -/
theorem contains_of_first? {n : Nat} {view : RegisterView} (hfirst : s.first? = some n)
    (hr : Register.general? n view = some r) : s.contains r := by
  obtain ⟨hcode, hlt, -⟩ := Register.code_of_general? hr
  have set : s.bits.toNat.testBit n := (Bits.testBit_of_lowest? hfirst).1
  rw [contains, r.isGeneral_iff.2 (by omega), hcode, ← BitVec.testBit_toNat, set]
  rfl

/-- No member comes before the first number of a set. -/
theorem le_of_contains {n : Nat} (hfirst : s.first? = some n) (h : s.contains r) :
    n ≤ r.code.toNat := by
  by_contra lt
  have clear := (Bits.testBit_of_lowest? hfirst).2 r.code.toNat (by omega)
  rw [contains, ← BitVec.testBit_toNat, clear, Bool.and_false] at h
  cases h

/-- A general-purpose register is a member after others were added if it is one of them. -/
theorem contains_insertMany (s : RegisterSet) (rs : List Register) (q : Register) :
    (s.insertMany rs).contains q = (s.contains q || q.isGeneral && rs.any (·.code = q.code)) := by
  rw [insertMany]
  induction rs generalizing s with
  | nil => simp
  | cons r rs ih =>
    rw [List.foldl_cons, ih, contains_insert, List.any_cons, Bool.or_assoc,
      Bool.and_or_distrib_left]
    simp only [eq_comm]

/-- A register is a member after others were taken out if it is none of them. -/
theorem contains_eraseMany (s : RegisterSet) (rs : List Register) (q : Register) :
    (s.eraseMany rs).contains q = (s.contains q && rs.all (·.code ≠ q.code)) := by
  rw [eraseMany]
  induction rs generalizing s with
  | nil => simp
  | cons r rs ih =>
    rw [List.foldl_cons, ih, contains_erase, List.all_cons, Bool.and_assoc]
    simp only [ne_comm]

/-- What is a member after registers were taken out is none of them. -/
theorem contains_eraseMany_iff {s : RegisterSet} {rs : List Register} {q : Register} :
    (s.eraseMany rs).contains q ↔ s.contains q ∧ ∀ r ∈ rs, r.code ≠ q.code := by
  rw [contains_eraseMany, Bool.and_eq_true, List.all_eq_true]
  exact and_congr_right fun _ => forall₂_congr fun _ _ => decide_eq_true_iff

/-! ### Proper sets -/

/-- Whether the members are general-purpose registers: number 31 is not in the set. -/
def IsProper (s : RegisterSet) : Prop :=
  s.bits.getLsbD 31 = false

/-- Whether a set is proper can be decided. -/
instance (s : RegisterSet) : Decidable s.IsProper :=
  inferInstanceAs (Decidable (_ = false))

/-- The empty set has general-purpose registers only. -/
theorem isProper_empty : empty.IsProper := rfl

/-- To put a register in adds a general-purpose one, or none. -/
theorem IsProper.insert (h : s.IsProper) (r : Register) : (s.insert r).IsProper := by
  unfold RegisterSet.insert
  split
  · next hr =>
    have lt := r.isGeneral_iff.1 hr
    have other : r.code.toNat ≠ 31 := by omega
    simp only [IsProper, BitVec.getLsbD_or, BitVec.getLsbD_twoPow, Bool.or_eq_false_iff]
    exact ⟨h, by simp [other]⟩
  · exact h

/-- To take a register out adds none. -/
theorem IsProper.erase (h : s.IsProper) (r : Register) : (s.erase r).IsProper := by
  unfold RegisterSet.erase
  split
  · rw [IsProper, BitVec.getLsbD_and, Bool.and_eq_false_iff]
    exact .inl h
  · exact h

/-- Nor do several registers that are put in add others. -/
theorem IsProper.insertMany (h : s.IsProper) (rs : List Register) : (s.insertMany rs).IsProper := by
  rw [RegisterSet.insertMany]
  induction rs generalizing s with
  | nil => exact h
  | cons r rs ih => exact ih (h.insert r)

/-- Nor do several registers that are taken out. -/
theorem IsProper.eraseMany (h : s.IsProper) (rs : List Register) : (s.eraseMany rs).IsProper := by
  rw [RegisterSet.eraseMany]
  induction rs generalizing s with
  | nil => exact h
  | cons r rs ih => exact ih (h.erase r)

/-- The set of a list has general-purpose registers only. -/
theorem isProper_ofList (rs : List Register) : (ofList rs).IsProper :=
  isProper_empty.insertMany rs

/-- Proper sets with the same members are the same set. -/
theorem IsProper.ext {t : RegisterSet} (hs : s.IsProper) (ht : t.IsProper)
    (h : ∀ r, s.contains r = t.contains r) : s = t := by
  refine congrArg RegisterSet.mk (BitVec.eq_of_getLsbD_eq fun n hn => ?_)
  by_cases last : n = 31
  · rw [last]
    exact hs.trans ht.symm
  · obtain ⟨r, hr⟩ : ∃ r, Register.general? n .x = some r := ⟨_, if_pos (show n < 31 by omega)⟩
    obtain ⟨hcode, hlt, -⟩ := Register.code_of_general? hr
    have member := h r
    rw [contains, contains, r.isGeneral_iff.2 (by omega), hcode] at member
    simpa using member

/-- The proper sets are those that can be listed. -/
theorem isProper_iff_exists_ofList : s.IsProper ↔ ∃ rs, s = ofList rs := by
  refine ⟨fun hs => ⟨((List.range 31).filterMap (Register.general? · .x)).filter s.contains,
    hs.ext (isProper_ofList _) fun r => ?_⟩, ?_⟩
  · rw [ofList, contains_insertMany, Bool.eq_iff_iff]
    simp only [Bool.or_eq_true, Bool.and_eq_true, List.any_eq_true, decide_eq_true_eq]
    constructor
    · intro member
      have general := isGeneral_of_contains member
      have lt := r.isGeneral_iff.1 general
      have listed := Register.general?_of_isGeneral general .x
      refine .inr ⟨general, r.withView .x, List.mem_filter.2 ⟨?_, ?_⟩, rfl⟩
      · exact List.mem_filterMap.2 ⟨_, List.mem_range.2 lt, listed⟩
      · rwa [contains_congr s (rfl : (r.withView .x).code = r.code)]
    · rintro (member | ⟨-, q, listed, code⟩)
      · simp [contains, empty] at member
      · rw [← contains_congr s code]
        exact (List.mem_filter.1 listed).2
  · rintro ⟨rs, rfl⟩
    exact isProper_ofList rs

/-- The first number of a proper set is that of a register. -/
theorem IsProper.exists_of_first? {n : Nat} (hs : s.IsProper) (h : s.first? = some n)
    (view : RegisterView) : ∃ r, Register.general? n view = some r := by
  have lt : n < 32 := Bits.lowest?_lt h
  have set : s.bits.toNat.testBit n := (Bits.testBit_of_lowest? h).1
  have other : n ≠ 31 := by
    intro eq
    rw [eq, BitVec.testBit_toNat, hs] at set
    cases set
  exact ⟨_, if_pos (show n < 31 by omega)⟩

/-- Only the empty set has no first number. -/
theorem first?_eq_none_iff : s.first? = none ↔ s = empty := by
  constructor
  · intro none
    by_contra nonempty
    have bits : s.bits.toNat ≠ 0 := fun zero =>
      nonempty (congrArg RegisterSet.mk (BitVec.eq_of_toNat_eq zero))
    obtain ⟨n, hn⟩ := Bits.exists_lowest? s.bits.isLt bits
    rw [first?, hn] at none
    cases none
  · rintro rfl
    rfl

end RegisterSet

end AArch64
