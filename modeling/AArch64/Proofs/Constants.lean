import AArch64.Proofs.Bitmasks
import AArch64.Proofs.FormSelection
import AArch64.Proofs.Runs

/-!
# Immediates in registers

The instructions that materialize an immediate leave it in the register. A value is looked at
halfword by halfword: one move wide fills in all halfwords, and each of those that follow replaces
one of them.

## Main results

* `AArch64.Immediate.ofNat_shiftLeft_of_moveWide?` — the one halfword that is not zero is the value.
* `AArch64.Move.executeAll_sequence` — a start and replacements make up the value.
* `AArch64.Emit.runs_movImmediate` — an immediate is moved to a register.
-/

set_option autoImplicit false

namespace AArch64

/-! ## Halfwords -/

namespace Immediate

variable {value w k : Nat}

/-- A halfword has 16 bits. -/
theorem halfword_lt (value i : Nat) : halfword value i < 2 ^ 16 :=
  Nat.mod_lt _ (Nat.two_pow_pos 16)

/-- The halfword of ones. -/
theorem testBit_ones (k : Nat) : Nat.testBit 0xffff k = decide (k < 16) := by
  rw [show 0xffff = 2 ^ 16 - 1 by rfl, Nat.testBit_two_pow_sub_one]

/-- A bit of a value is one of a halfword. -/
theorem testBit_eq_halfword (value k : Nat) :
    value.testBit k = (halfword value (k / 16)).testBit (k % 16) := by
  rw [halfword, Nat.testBit_mod_two_pow, decide_eq_true (Nat.mod_lt k (by decide)), Bool.true_and,
    Nat.testBit_div_two_pow, Nat.mod_add_div]

/-- All bits of a halfword that is left out are the same. -/
theorem testBit_of_halfword_eq {inverted : Bool}
    (h : halfword value (k / 16) = if inverted then 0xffff else 0) :
    value.testBit k = inverted := by
  rw [testBit_eq_halfword, h]
  cases inverted with
  | false => exact Nat.zero_testBit _
  | true =>
    rw [if_pos rfl, testBit_ones]
    exact decide_eq_true (Nat.mod_lt k (by decide))

/-- A halfword whose bits are all the same is one that can be left out. -/
theorem halfword_eq_of_testBit (inverted : Bool) {i : Nat}
    (h : ∀ k, k / 16 = i → value.testBit k = inverted) :
    halfword value i = if inverted then 0xffff else 0 := by
  refine Nat.eq_of_testBit_eq fun j => ?_
  by_cases hj : j < 16
  · -- bit `j` of the halfword is bit `16 * i + j` of the value
    have place : (16 * i + j) / 16 = i ∧ (16 * i + j) % 16 = j := by omega
    have bit := testBit_eq_halfword value (16 * i + j)
    rw [place.1, place.2, h _ place.1] at bit
    rw [← bit]
    cases inverted with
    | false => exact (Nat.zero_testBit j).symm
    | true => rw [if_pos rfl, testBit_ones, decide_eq_true hj]
  · have above : 2 ^ 16 ≤ 2 ^ j := Nat.pow_le_pow_right (by decide) (by omega)
    rw [Nat.testBit_lt_two_pow (Nat.lt_of_lt_of_le (halfword_lt value i) above)]
    cases inverted with
    | false => exact (Nat.zero_testBit j).symm
    | true => rw [if_pos rfl, testBit_ones, decide_eq_false hj]

/-- A bit of the complement within a width. -/
theorem testBit_complement (value : Nat) (hk : k < w) :
    (complement value w).testBit k = !value.testBit k := by
  have small := Nat.mod_lt value (Nat.two_pow_pos w)
  rw [complement, Nat.sub_sub, Nat.add_comm 1, Nat.testBit_two_pow_sub_succ small,
    Nat.testBit_mod_two_pow, decide_eq_true hk, Bool.true_and, Bool.true_and]

/-- The complement of a value as a number of `w` bits. -/
theorem ofNat_complement (value w : Nat) :
    BitVec.ofNat w (complement value w) = ~~~BitVec.ofNat w value := by
  refine BitVec.eq_of_getLsbD_eq fun k hk => ?_
  rw [BitVec.getLsbD_not, BitVec.getLsbD_ofNat, BitVec.getLsbD_ofNat, testBit_complement value hk,
    decide_eq_true hk, Bool.true_and, Bool.true_and, Bool.true_and]

/-- An operation reads an immediate modulo its width. -/
theorem ofInt_of_atWidth? {imm imm' : Int} (hw : w = 32 ∨ w = 64) (h : atWidth? imm w = some imm') :
    BitVec.ofInt w imm' = BitVec.ofInt w imm := by
  have residue : imm' % (2 ^ w : Nat) = imm % (2 ^ w : Nat) := by
    rw [atWidth?] at h
    rcases hw with rfl | rfl
    · rw [if_neg (by decide)] at h
      split at h
      · obtain rfl := Option.some.inj h
        split <;> omega
      · cases h
    · rw [if_pos rfl] at h
      rw [Option.some.inj h]
  refine BitVec.eq_of_toNat_eq ?_
  rw [BitVec.toNat_ofInt, BitVec.toNat_ofInt, residue]

/-- The bits of an immediate. -/
theorem ofNat_toBits (imm : Int) (w : Nat) :
    BitVec.ofNat w (toBits imm w) = BitVec.ofInt w imm := by
  have power : (2 ^ w : Int) = (2 ^ w : Nat) := by norm_cast
  have small : (imm % (2 ^ w : Nat)).toNat < 2 ^ w := by
    have pos := Nat.two_pow_pos w
    omega
  refine BitVec.eq_of_toNat_eq ?_
  rw [toBits, power, BitVec.toNat_ofNat, BitVec.toNat_ofInt, Nat.mod_eq_of_lt small]

/-! ### Halfwords in their places -/

section Places

variable {imm16 hw : Nat}

/-- The bits of a halfword in its place. -/
theorem getLsbD_ofNat_shiftLeft (himm : imm16 < 2 ^ 16) (hk : k < w) :
    (BitVec.ofNat w imm16 <<< (16 * hw)).getLsbD k =
      (decide (k / 16 = hw) && imm16.testBit (k % 16)) := by
  rw [BitVec.getLsbD_shiftLeft, BitVec.getLsbD_ofNat, decide_eq_true hk, Bool.true_and]
  by_cases below : k < 16 * hw
  · rw [decide_eq_true below, decide_eq_false (show ¬ k / 16 = hw by omega)]
    rfl
  · rw [decide_eq_false below, decide_eq_true (show k - 16 * hw < w by omega)]
    by_cases here : k / 16 = hw
    · rw [decide_eq_true here, show k - 16 * hw = k % 16 by omega]
      rfl
    · have above : imm16 < 2 ^ (k - 16 * hw) :=
        Nat.lt_of_lt_of_le himm (Nat.pow_le_pow_right (by decide) (by omega))
      rw [decide_eq_false here, Nat.testBit_lt_two_pow above]
      rfl

/-- What is not zero among the low halfwords. -/
theorem mem_nonzeroHalfwords {n : Nat} {p : Nat × Nat} :
    p ∈ nonzeroHalfwords value n ↔ p.2 < n ∧ p.1 = halfword value p.2 ∧ p.1 ≠ 0 := by
  obtain ⟨imm16, hw⟩ := p
  simp only [nonzeroHalfwords, List.mem_filter, List.mem_map, List.mem_range, Prod.mk.injEq,
    decide_eq_true_eq]
  constructor
  · rintro ⟨⟨i, hi, rfl, rfl⟩, hne⟩
    exact ⟨hi, rfl, hne⟩
  · rintro ⟨hi, rfl, hne⟩
    exact ⟨⟨hw, hi, rfl, rfl⟩, hne⟩

/-- A value with one halfword that is not zero, or with none. -/
theorem halfword_of_moveWide? (h : moveWide? value w = some (imm16, hw)) :
    imm16 < 2 ^ 16 ∧ ∀ i < w / 16, halfword value i = if i = hw then imm16 else 0 := by
  have members : ∀ i < w / 16, halfword value i ≠ 0 →
      (halfword value i, i) ∈ nonzeroHalfwords value (w / 16) := fun i hi hne =>
    mem_nonzeroHalfwords.2 ⟨hi, rfl, hne⟩
  rw [moveWide?] at h
  split at h
  · next none =>
    cases h
    refine ⟨by decide, fun i hi => ?_⟩
    rw [ite_self]
    by_contra hne
    have member := members i hi hne
    rw [none] at member
    cases member
  · next p one =>
    obtain rfl := Option.some.inj h
    have here : (imm16, hw) ∈ nonzeroHalfwords value (w / 16) := one ▸ List.mem_singleton_self _
    have himm : imm16 = halfword value hw := (mem_nonzeroHalfwords.1 here).2.1
    refine ⟨himm ▸ halfword_lt value hw, fun i hi => ?_⟩
    split
    · next eq => rw [eq, himm]
    · next other =>
      by_contra hne
      have member := members i hi hne
      rw [one, List.mem_singleton] at member
      exact other (congrArg Prod.snd member)
  · cases h

/-- A value that is no single halfword has one that is not zero. -/
theorem exists_halfword_ne_zero (h : moveWide? value w = none) :
    ∃ i < w / 16, halfword value i ≠ 0 := by
  rw [moveWide?] at h
  split at h
  · cases h
  · cases h
  · next several _ =>
    obtain ⟨p, hp⟩ := List.exists_mem_of_ne_nil _ several
    obtain ⟨hi, hp, hne⟩ := mem_nonzeroHalfwords.1 hp
    exact ⟨p.2, hi, hp ▸ hne⟩

/-- The one halfword that is not zero, in its place, is the value. -/
theorem ofNat_shiftLeft_of_moveWide? (hw16 : 16 ∣ w) (h : moveWide? value w = some (imm16, hw)) :
    BitVec.ofNat w imm16 <<< (16 * hw) = BitVec.ofNat w value := by
  obtain ⟨himm, halves⟩ := halfword_of_moveWide? h
  refine BitVec.eq_of_getLsbD_eq fun k hk => ?_
  rw [getLsbD_ofNat_shiftLeft himm hk, BitVec.getLsbD_ofNat, decide_eq_true hk, Bool.true_and,
    testBit_eq_halfword value, halves (k / 16) (Nat.div_lt_div_of_lt_of_dvd hw16 hk)]
  split
  · next here => rw [decide_eq_true here, Bool.true_and]
  · next other => rw [decide_eq_false other, Nat.zero_testBit, Bool.false_and]

end Places

end Immediate

open Immediate

/-! ## Move wide -/

namespace MoveWideOp

variable {w imm16 hw k : Nat}

/-- The bits after a move of an inverted halfword. -/
theorem getLsbD_movn (himm : imm16 < 2 ^ 16) (hk : k < w) (x : BitVec w) :
    (movn.apply x imm16 (16 * hw)).getLsbD k =
      !(decide (k / 16 = hw) && imm16.testBit (k % 16)) := by
  rw [apply, BitVec.getLsbD_not, getLsbD_ofNat_shiftLeft himm hk, decide_eq_true hk, Bool.true_and]

/-- One halfword is replaced, and the others are kept. -/
theorem getLsbD_movk (himm : imm16 < 2 ^ 16) (hk : k < w) (x : BitVec w) :
    (movk.apply x imm16 (16 * hw)).getLsbD k =
      if k / 16 = hw then imm16.testBit (k % 16) else x.getLsbD k := by
  have ones : Nat.testBit 0xffff (k % 16) = true := by
    rw [testBit_ones]
    exact decide_eq_true (Nat.mod_lt k (by decide))
  rw [apply, BitVec.getLsbD_or, BitVec.getLsbD_and, BitVec.getLsbD_not,
    getLsbD_ofNat_shiftLeft himm hk, getLsbD_ofNat_shiftLeft (by decide) hk, ones]
  by_cases here : k / 16 = hw
  · simp [here]
  · simp [here, hk]

/-- The value that a sequence starts with: a halfword among others of one kind. -/
def start (w : Nat) (inverted : Bool) (imm16 hw : Nat) : BitVec w :=
  if inverted then movn.apply 0#w (0xffff - imm16) (16 * hw) else movz.apply 0#w imm16 (16 * hw)

/-- The halfwords that a start fills in have ones only, or zeros only. -/
theorem getLsbD_start (himm : imm16 < 2 ^ 16) (hk : k < w) (inverted : Bool) :
    (start w inverted imm16 hw).getLsbD k =
      if k / 16 = hw then imm16.testBit (k % 16) else inverted := by
  cases inverted with
  | false =>
    rw [start, if_neg Bool.false_ne_true, apply, getLsbD_ofNat_shiftLeft himm hk]
    by_cases here : k / 16 = hw
    · simp [here]
    · simp [here]
  | true =>
    have inverse : (0xffff - imm16).testBit (k % 16) = !imm16.testBit (k % 16) := by
      rw [show 0xffff - imm16 = 2 ^ 16 - (imm16 + 1) by omega, Nat.testBit_two_pow_sub_succ himm,
        decide_eq_true (Nat.mod_lt k (by decide)), Bool.true_and]
    rw [start, if_pos rfl, getLsbD_movn (by omega) hk, inverse]
    by_cases here : k / 16 = hw
    · simp [here]
    · simp [here]

/-- What halfwords that replace those of a value make of it. -/
def keep (x : BitVec w) (replacements : List (Nat × Nat)) : BitVec w :=
  replacements.foldl (fun x p => movk.apply x p.1 (16 * p.2)) x

/-- Halfwords of a number replace bits by those of the number. -/
theorem getLsbD_keep {value : Nat} (hk : k < w) {replacements : List (Nat × Nat)}
    (h : ∀ p ∈ replacements, p.1 = halfword value p.2) {x : BitVec w}
    (hx : x.getLsbD k = value.testBit k ∨ ∃ p ∈ replacements, p.2 = k / 16) :
    (keep x replacements).getLsbD k = value.testBit k := by
  induction replacements generalizing x with
  | nil =>
    rcases hx with hx | ⟨p, hp, -⟩
    · exact hx
    · cases hp
  | cons p rest ih =>
    obtain ⟨hp, hrest⟩ := List.forall_mem_cons.1 h
    refine ih hrest ?_
    rw [getLsbD_movk (hp ▸ halfword_lt value p.2) hk]
    split
    · next here => exact .inl (by rw [hp, ← here, ← testBit_eq_halfword])
    · next other =>
      rcases hx with hx | ⟨q, hq, place⟩
      · exact .inl hx
      · refine .inr ⟨q, (List.mem_cons.1 hq).resolve_left ?_, place⟩
        rintro rfl
        exact other place.symm

/-- Halfwords that are not replaced are kept. -/
theorem getLsbD_keep_of_ne (hk : k < w) {replacements : List (Nat × Nat)}
    (h : ∀ p ∈ replacements, p.1 < 2 ^ 16 ∧ p.2 ≠ k / 16) (x : BitVec w) :
    (keep x replacements).getLsbD k = x.getLsbD k := by
  induction replacements generalizing x with
  | nil => rfl
  | cons p rest ih =>
    obtain ⟨⟨himm, other⟩, hrest⟩ := List.forall_mem_cons.1 h
    refine (ih hrest _).trans ?_
    rw [getLsbD_movk himm hk, if_neg other.symm]

end MoveWideOp

/-! ## The instructions of an immediate -/

namespace Machine

/-- A form and then others are executed one after another. -/
theorem executeAll_cons (m : Machine) (f : Form) (fs : List Form) :
    m.executeAll (f :: fs) = (f.execute m).bind (·.executeAll fs) := by
  rw [executeAll, List.foldlM_cons]
  rfl

/-- A single form is executed. -/
theorem executeAll_singleton (m : Machine) (f : Form) : m.executeAll [f] = f.execute m := by
  rw [executeAll_cons]
  exact Option.bind_fun_some _

end Machine

namespace Move

variable {rd : Register} {value : Nat} (m : Machine)

/-- A move wide does not read what it moves to, unless it replaces a halfword. -/
theorem execute_start (inverted : Bool) (imm16 hw : Nat) :
    Form.execute (if inverted then .moveWide .movn rd (0xffff - imm16) hw
        else .moveWide .movz rd imm16 hw) m =
      some (m.writeAt rd (MoveWideOp.start rd.width inverted imm16 hw)) := by
  cases inverted <;> rfl

/-- Replacements are made one after another. -/
theorem executeAll_movk (hrd : rd.IsBuilt) (x : BitVec rd.width) (replacements : List (Nat × Nat)) :
    (m.writeAt rd x).executeAll
        (replacements.map fun (imm16, hw) => .moveWide .movk rd imm16 hw) =
      some (m.writeAt rd (MoveWideOp.keep x replacements)) := by
  induction replacements generalizing x with
  | nil => rfl
  | cons p rest ih =>
    rw [List.map_cons, Machine.executeAll_cons, Form.execute, Option.bind_some,
      Machine.writeAt_writeAt]
    cases hzero : rd.isZero with
    | true =>
      have ih := ih x
      simp only [Machine.writeAt_of_isZero hzero] at ih ⊢
      exact ih
    | false =>
      rw [Machine.readAt_writeAt_self hrd hzero rd.width_le, ih]
      rfl

/-- Halfwords with their positions. -/
theorem mem_zipIdx_halfwords {n : Nat} {p : Nat × Nat} :
    p ∈ ((List.range n).map (halfword value)).zipIdx ↔ p.2 < n ∧ p.1 = halfword value p.2 := by
  rw [List.mem_zipIdx_iff_getElem?, List.getElem?_map]
  by_cases hi : p.2 < n
  · rw [List.getElem?_range hi, Option.map_some, Option.some.injEq, eq_comm]
    exact (and_iff_right hi).symm
  · rw [List.getElem?_eq_none (by simpa using hi), Option.map_none]
    exact iff_of_false (by simp) fun h => hi h.1

/-- A start and replacements make up a value of which not all halfwords are left out. -/
theorem executeAll_sequence (hrd : rd.IsBuilt) (hw16 : 16 ∣ rd.width) {inverted : Bool}
    (hne : ∃ i < rd.width / 16, halfword value i ≠ if inverted then 0xffff else 0) :
    m.executeAll (sequence rd ((List.range (rd.width / 16)).map (halfword value)) inverted) =
      some (m.writeAt rd (BitVec.ofNat rd.width value)) := by
  have members : ∀ p : Nat × Nat,
      p ∈ ((List.range (rd.width / 16)).map (halfword value)).zipIdx.filter
          (·.1 ≠ if inverted then 0xffff else 0) ↔
        p.2 < rd.width / 16 ∧ p.1 = halfword value p.2 ∧
          p.1 ≠ if inverted then 0xffff else 0 := by
    intro p
    rw [List.mem_filter, mem_zipIdx_halfwords, decide_eq_true_iff, and_assoc]
  rw [sequence]
  dsimp only
  generalize List.filter _ _ = l at members
  cases l with
  | nil =>
    obtain ⟨i, hi, hne⟩ := hne
    cases (members (halfword value i, i)).2 ⟨hi, rfl, hne⟩
  | cons p rest =>
    obtain ⟨-, hp, -⟩ := (members p).1 (.head _)
    have himm : p.1 < 2 ^ 16 := hp ▸ halfword_lt value p.2
    rw [Machine.executeAll_cons, execute_start, Option.bind_some, executeAll_movk m hrd]
    refine congrArg (fun x => some (m.writeAt rd x)) (BitVec.eq_of_getLsbD_eq fun k hk => ?_)
    rw [BitVec.getLsbD_ofNat, decide_eq_true hk, Bool.true_and]
    refine MoveWideOp.getLsbD_keep hk (fun q hq => ((members q).1 (.tail _ hq)).2.1) ?_
    rw [MoveWideOp.getLsbD_start himm hk]
    by_cases here : k / 16 = p.2
    · exact .inl (by rw [if_pos here, hp, ← here, ← testBit_eq_halfword])
    · rw [if_neg here]
      by_cases left : halfword value (k / 16) = if inverted then 0xffff else 0
      · exact .inl (testBit_of_halfword_eq left).symm
      · have member := (members (halfword value (k / 16), k / 16)).2
          ⟨Nat.div_lt_div_of_lt_of_dvd hw16 hk, rfl, left⟩
        refine .inr ⟨_, (List.mem_cons.1 member).resolve_left ?_, rfl⟩
        exact fun eq => here (congrArg Prod.snd eq)

/-- A value that is no single halfword, nor the complement of one, is not left out as a whole. -/
theorem exists_halfword_ne {w : Nat} (hw16 : 16 ∣ w) (h : moveWide? value w = none)
    (hinverse : moveWide? (complement value w) w = none) (inverted : Bool) :
    ∃ i < w / 16, halfword value i ≠ if inverted then 0xffff else 0 := by
  cases inverted with
  | false => exact exists_halfword_ne_zero h
  | true =>
    obtain ⟨i, hi, hne⟩ := exists_halfword_ne_zero hinverse
    refine ⟨i, hi, fun ones => hne (halfword_eq_of_testBit false fun k hk => ?_)⟩
    rw [testBit_complement value (by omega), testBit_of_halfword_eq (hk ▸ ones)]
    rfl

/-- A bitmask immediate is combined with zero. -/
theorem execute_bitmask {bitmask : Bitmask}
    (hencode : Bitmask.encode value rd.width = .ok (some bitmask)) :
    (Form.logicalImmediate .orr rd (.zero rd.view) bitmask).execute m =
      some (m.writeAt rd (BitVec.ofNat rd.width value)) := by
  have zero : (Register.zero rd.view).isZero := rfl
  have combined : BitVec.zero rd.width ||| BitVec.ofNat rd.width (value % 2 ^ rd.width) =
      BitVec.ofNat rd.width value := by
    refine BitVec.zero_or.trans ?_
    exact BitVec.eq_of_toNat_eq (Nat.mod_mod _ _)
  rw [Form.execute, Bitmask.value?_of_encode rd.width_eq_or hencode, Option.map_some,
    Machine.readAt_of_isZero zero]
  exact congrArg some ((m.writeResult_false rd _).trans (congrArg (m.writeAt rd) combined))

/-- The instructions that are chosen for a value leave it in the register. -/
theorem executeAll_of_selects (hrd : rd.IsBuilt) {fs : List Form} (h : Selects rd value fs) :
    m.executeAll fs = some (m.writeAt rd (BitVec.ofNat rd.width value)) := by
  have hw16 : 16 ∣ rd.width := by rcases rd.width_eq_or with h | h <;> omega
  cases h with
  | halfword direct =>
    rw [Machine.executeAll_singleton, Form.execute, MoveWideOp.apply,
      ofNat_shiftLeft_of_moveWide? hw16 direct]
  | complement _ inverse =>
    rw [Machine.executeAll_singleton, Form.execute, MoveWideOp.apply,
      ofNat_shiftLeft_of_moveWide? hw16 inverse, ofNat_complement, BitVec.not_not]
  | bitmask _ _ encode _ => rw [Machine.executeAll_singleton, execute_bitmask m encode]
  | sequence direct inverse _ =>
    exact executeAll_sequence m hrd hw16 (exists_halfword_ne hw16 direct inverse _)

/-- **The instructions of an immediate leave it in the register**, at the width of the register.

**Proof sketch.** A single halfword is the value (`AArch64.Immediate.ofNat_shiftLeft_of_moveWide?`),
or the complement of one is its complement. A bitmask immediate is read back
(`AArch64.Bitmask.value?_of_encode`) and combined with zero. Otherwise halfwords are replaced one
by one (`executeAll_sequence`). -/
theorem executeAll_of_immediateForms (hrd : rd.IsBuilt) {imm : Int} {fs : List Form}
    (h : immediateForms rd imm = .ok fs) :
    m.executeAll fs = some (m.writeAt rd (BitVec.ofInt rd.width imm)) := by
  obtain ⟨imm', himm, selects⟩ := exists_of_immediateForms h
  rw [executeAll_of_selects m hrd selects, ofNat_toBits, ofInt_of_atWidth? rd.width_eq_or himm]

end Move

/-- A register other than the stack pointer gets an immediate. -/
theorem Emit.runs_movImmediate {s : Emitter} {m : Machine} {rd : Register} (hrd : rd.IsBuilt)
    (hstack : rd.isStack = false) (imm : Int) :
    (movImmediate rd imm).Runs s m fun _ p m' =>
      p = s.pool ∧ m' = m.writeAt rd (BitVec.ofInt rd.width imm) := by
  rw [movImmediate, if_neg (by simp [hstack])]
  refine .lift_bind fun fs hfs => .forms (fun f hf => ?_)
    ⟨_, Move.executeAll_of_immediateForms m hrd hfs, rfl, rfl⟩
  rcases Move.cases_of_mem_immediateForms hfs hf with ⟨op, imm16, hw, rfl⟩ | ⟨-, bitmask, rfl⟩
  · exact List.forall_mem_singleton.2 hrd
  · simp [Form.registers, hrd, Register.isBuilt_zero]

end AArch64
