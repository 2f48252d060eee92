import AArch64.Emitter.Operation
import AArch64.Proofs.Constants
import AArch64.Proofs.RotatedRuns
import Mathlib.Data.List.Perm.Subperm

/-!
# Immediates take as few instructions as possible

An immediate is materialized by one `orr` with a bitmask immediate, or by a `movz` or `movn` and
any number of `movk`. The start of such a sequence makes all halfwords but one zeros, or all but one
ones, so that every halfword of another kind takes an instruction of its own. What is chosen for an
immediate takes no more instructions than that, and is the shortest of all sequences that
materialize it.

## Main definitions

* `AArch64.Immediate.Admits` — the immediates of operations of a width.
* `AArch64.Immediate.leftOver` — how many halfwords a start does not fill in.
* `AArch64.Move.Materializes` — the sequences that leave a value in a register.

## Main results

* `AArch64.Move.leftOver_le_of_materializes` — how long a sequence has to be.
* `AArch64.Move.materializes_of_selects` — the chosen instructions are such a sequence.
* `AArch64.Move.length_le_of_materializes` — none is shorter.
* `AArch64.Operation.mov_immediate_shortest` — what the move of an immediate emits.
-/

set_option autoImplicit false

namespace AArch64

/-! ## Immediates -/

namespace Immediate

variable {value n : Nat} {inverted : Bool}

/-- The immediates that an operation of a width takes: any at 64 bits, and those of the signed and
the unsigned 32-bit numbers at 32 bits. -/
def Admits (width : Nat) (imm : Int) : Prop :=
  width = 64 ∨ (-2 ^ 31 ≤ imm ∧ imm < 2 ^ 31) ∨ (0 ≤ imm ∧ imm < 2 ^ 32)

/-- A width takes an immediate exactly if the immediate has a value at that width. -/
theorem admits_iff_atWidth? {width : Nat} {imm : Int} :
    Admits width imm ↔ ∃ imm', atWidth? imm width = some imm' := by
  rw [Admits, atWidth?, show mostNegative 32 = -2 ^ 31 by rfl]
  by_cases wide : width = 64
  · simp [wide]
  · by_cases fits : -2 ^ 31 ≤ imm ∧ imm < 2 ^ 32
    · rw [if_neg wide, if_pos fits]
      exact iff_of_true (by omega) ⟨_, rfl⟩
    · rw [if_neg wide, if_neg fits]
      exact iff_of_false (by omega) (by simp)

/-! ### Halfwords of another kind -/

/-- How many of the low `n` halfwords are not of the kind that a start fills in. -/
def leftOver (value n : Nat) (inverted : Bool) : Nat :=
  (List.range n).countP fun i => halfword value i ≠ if inverted then 0xffff else 0

/-- There are at most as many halfwords left over as there are halfwords. -/
theorem leftOver_le (value n : Nat) (inverted : Bool) : leftOver value n inverted ≤ n := by
  have le := List.countP_le_length (l := List.range n)
    (p := fun i => halfword value i ≠ if inverted then 0xffff else 0)
  rwa [List.length_range] at le

/-- A halfword is filled in, or it is left over. -/
theorem count_add_leftOver (value n : Nat) (inverted : Bool) :
    ((List.range n).map (halfword value)).count (if inverted then 0xffff else 0) +
      leftOver value n inverted = n := by
  have split := List.length_eq_countP_add_countP (l := List.range n)
    (fun i => halfword value i == if inverted then 0xffff else 0)
  rw [List.length_range] at split
  rw [leftOver, List.count_eq_countP, List.countP_map]
  simpa [Function.comp_def] using split.symm

end Immediate

open Immediate

namespace Move

variable {rd : Register} {value n : Nat} {fs gs : List Form}

/-- The kind of halfword that is more frequent leaves fewer halfwords over. -/
theorem leftOver_prefersInverted_le (value n : Nat) (inverted : Bool) :
    leftOver value n (prefersInverted ((List.range n).map (halfword value))) ≤
      leftOver value n inverted := by
  have zeros := count_add_leftOver value n false
  have ones := count_add_leftOver value n true
  simp only [Bool.false_eq_true, if_false, if_true] at zeros ones
  cases prefers : prefersInverted ((List.range n).map (halfword value)) with
  | false =>
    have more := of_decide_eq_false prefers
    cases inverted <;> omega
  | true =>
    have more := of_decide_eq_true prefers
    cases inverted <;> omega

/-- A sequence has one instruction for each halfword that is left over. -/
theorem length_sequence (rd : Register) (value n : Nat) (inverted : Bool) :
    (sequence rd ((List.range n).map (halfword value)) inverted).length =
      leftOver value n inverted := by
  have halves := congrArg (List.countP (· ≠ if inverted then 0xffff else 0))
    (List.zipIdx_map_fst 0 ((List.range n).map (halfword value)))
  rw [List.countP_map, List.countP_map, List.countP_eq_length_filter] at halves
  rw [sequence, leftOver]
  refine Eq.trans ?_ halves
  dsimp only [Function.comp_def]
  cases List.filter _ _ with
  | nil => rfl
  | cons p rest => simp

/-! ## Sequences that materialize a value -/

/-- The sequences that are compared: one combination with a bitmask immediate, or a move wide and
any number of replacements. -/
inductive IsSequence (rd : Register) : List Form → Prop
  /-- One `orr` with a bitmask immediate. -/
  | bitmask {rn : Register} (bitmask : Bitmask) (hrn : rn.IsBuilt) :
    IsSequence rd [.logicalImmediate .orr rd rn bitmask]
  /-- One `movz` or `movn`, and then `movk` only. -/
  | wide {op : MoveWideOp} (hop : op ≠ .movk) (imm16 hw : Nat) (replacements : List (Nat × Nat)) :
    IsSequence rd (.moveWide op rd imm16 hw ::
      replacements.map fun (imm16, hw) => .moveWide .movk rd imm16 hw)

/-- A sequence of instructions that can be encoded and that leave a value in a register, from
whatever machine they start. -/
structure Materializes (rd : Register) (value : BitVec rd.width) (fs : List Form) : Prop where
  isSequence : IsSequence rd fs
  check : ∀ f ∈ fs, f.check = .ok ()
  run : ∀ m : Machine, ∃ m', m.run (fs.map Form.word) = some m' ∧ m'.readAt rd.width rd = value

/-- The registers of a sequence are built. -/
theorem IsSequence.isBuilt (h : IsSequence rd fs) (hrd : rd.IsBuilt) :
    ∀ f ∈ fs, ∀ r ∈ f.registers, r.IsBuilt := by
  cases h with
  | bitmask b hrn => simp [Form.registers, hrd, hrn]
  | wide =>
    exact List.forall_mem_cons.2 ⟨List.forall_mem_singleton.2 hrd,
      List.forall_mem_map.2 fun _ _ => List.forall_mem_singleton.2 hrd⟩

/-- A sequence has a first form. -/
theorem IsSequence.length_pos (h : IsSequence rd fs) : 0 < fs.length := by
  cases h with
  | bitmask => exact Nat.one_pos
  | wide => exact Nat.succ_pos _

/-- What the words do is what the forms do. -/
theorem Materializes.executeAll {value : BitVec rd.width} (h : Materializes rd value fs)
    (hrd : rd.IsBuilt) (m : Machine) :
    ∃ m', m.executeAll fs = some m' ∧ m'.readAt rd.width rd = value := by
  rw [← Machine.run_words h.check (h.isSequence.isBuilt hrd)]
  exact h.run m

/-- The checks of a move of an immediate. -/
theorem check_moveWide_iff {op : MoveWideOp} {imm16 hw : Nat} :
    (Form.moveWide op rd imm16 hw).check = .ok () ↔
      imm16 < 2 ^ 16 ∧ hw < rd.width / 16 ∧ rd.isStack = false := by
  simp [Form.check, bind_eq_ok_iff, require_eq_ok_iff]

/-! ## How long a sequence has to be -/

/-- A `movz` or `movn` starts with halfwords of one kind. -/
theorem exists_execute_start (rd : Register) {op : MoveWideOp} (hop : op ≠ .movk) {imm16 : Nat}
    (himm : imm16 < 2 ^ 16) (hw : Nat) :
    ∃ start < 2 ^ 16, ∀ m : Machine, (Form.moveWide op rd imm16 hw).execute m =
      some (m.writeAt rd (MoveWideOp.start rd.width (op = .movn) start hw)) := by
  cases op with
  | movk => exact absurd rfl hop
  | movz => exact ⟨imm16, himm, fun m => execute_start m false imm16 hw⟩
  | movn =>
    refine ⟨0xffff - imm16, by omega, fun m => ?_⟩
    refine Eq.trans ?_ (execute_start m true (0xffff - imm16) hw)
    rw [if_pos rfl, show 0xffff - (0xffff - imm16) = imm16 by omega]

/-- **A halfword that the start does not fill in takes an instruction of its own.** -/
theorem leftOver_le_of_materializes (hrd : rd.IsBuilt) (hzero : rd.isZero = false)
    {op : MoveWideOp} (hop : op ≠ .movk) {imm16 hw : Nat} {replacements : List (Nat × Nat)}
    (h : Materializes rd (BitVec.ofNat rd.width value) (.moveWide op rd imm16 hw ::
      replacements.map fun (imm16, hw) => .moveWide .movk rd imm16 hw)) :
    leftOver value (rd.width / 16) (op = .movn) ≤ replacements.length + 1 := by
  obtain ⟨himm, checks⟩ := List.forall_mem_cons.1 h.check
  have small : ∀ p ∈ replacements, p.1 < 2 ^ 16 := fun p hp =>
    (check_moveWide_iff.1 (checks _ (List.mem_map_of_mem hp))).1
  obtain ⟨start, hstart, execute⟩ :=
    exists_execute_start rd hop (check_moveWide_iff.1 himm).1 hw
  obtain ⟨m', hm', result⟩ := h.executeAll hrd default
  rw [Machine.executeAll_cons, execute, Option.bind_some, executeAll_movk _ hrd] at hm'
  rw [← Option.some.inj hm', Machine.readAt_writeAt_self hrd hzero rd.width_le] at result
  -- a halfword that no instruction is about is the one that the start fills in
  have filled : ∀ i < rd.width / 16, i ∉ hw :: replacements.map Prod.snd →
      halfword value i = if (decide (op = .movn)) then 0xffff else 0 := by
    intro i hi untouched
    obtain ⟨hne, hrest⟩ := List.ne_and_not_mem_of_not_mem_cons untouched
    refine halfword_eq_of_testBit _ fun k hk => ?_
    have bound : k < rd.width := by omega
    have bit := congrArg (BitVec.getLsbD · k) result
    rw [MoveWideOp.getLsbD_keep_of_ne bound fun p hp => ⟨small p hp, fun place =>
        hrest (List.mem_map.2 ⟨p, hp, place.trans hk⟩)⟩,
      MoveWideOp.getLsbD_start hstart bound, if_neg (hk ▸ hne), BitVec.getLsbD_ofNat,
      decide_eq_true bound, Bool.true_and] at bit
    exact bit.symm
  have covered : (List.range (rd.width / 16)).filter
      (fun i => halfword value i ≠ if (decide (op = .movn)) then 0xffff else 0) ⊆
      hw :: replacements.map Prod.snd := by
    intro i hi
    obtain ⟨hi, hne⟩ := List.mem_filter.1 hi
    by_contra untouched
    exact of_decide_eq_true hne (filled i (List.mem_range.1 hi) untouched)
  have places := (List.subperm_of_subset (List.nodup_range.filter _) covered).length_le
  rwa [List.length_cons, List.length_map, ← List.countP_eq_length_filter] at places

/-- The default machine holds zeros. -/
theorem readAt_default (w : Nat) (r : Register) : (default : Machine).readAt w r = 0#w := by
  have zero : (default : Machine).read r = 0 := by
    rw [Machine.read]
    split
    · rfl
    · split <;> rfl
  rw [Machine.readAt, zero]
  exact BitVec.setWidth_zero w 64

/-- A value that one combination with a bitmask immediate materializes is encoded as one. -/
theorem exists_encode_of_materializes (hrd : rd.IsBuilt) (hzero : rd.isZero = false)
    {rn : Register} {bitmask : Bitmask}
    (h : Materializes rd (BitVec.ofNat rd.width value) [.logicalImmediate .orr rd rn bitmask]) :
    ∃ b, Bitmask.encode value rd.width = .ok (some b) := by
  obtain ⟨k, hk, width⟩ := rd.exists_width_eq
  obtain ⟨m', hm', result⟩ := h.executeAll hrd default
  rw [Machine.executeAll_singleton, Form.execute, readAt_default] at hm'
  obtain ⟨v, hv, rfl⟩ := Option.map_eq_some_iff.1 hm'
  have written : BitVec.ofNat rd.width v = BitVec.ofNat rd.width value := by
    rw [← result]
    refine Eq.trans ?_ (Machine.readAt_writeAt_self hrd hzero rd.width_le _).symm
    exact BitVec.zero_or.symm
  have residue := congrArg BitVec.toNat written
  rw [BitVec.toNat_ofNat, BitVec.toNat_ofNat, width] at residue
  rw [width] at hv ⊢
  obtain ⟨run, -, makes⟩ := Bitmask.makes_of_value? hk hv
  refine ⟨run.fields, (Bitmask.encode_eq_some_iff hk).2 ⟨run, ?_, rfl⟩⟩
  rwa [← Bitmask.makes_mod, ← residue, Bitmask.makes_mod]

/-! ## The chosen sequence -/

/-- A halfword that a value is moved as, and its place, have room in the fields. -/
theorem lt_of_moveWide? {imm16 hw : Nat} (h : moveWide? value rd.width = some (imm16, hw)) :
    imm16 < 2 ^ 16 ∧ hw < rd.width / 16 := by
  refine ⟨(halfword_of_moveWide? h).1, ?_⟩
  rw [moveWide?] at h
  split at h
  · obtain ⟨-, rfl⟩ := Prod.mk.inj (Option.some.inj h)
    rcases rd.width_eq_or with h | h <;> omega
  · next p one =>
    obtain rfl := Option.some.inj h
    exact (mem_nonzeroHalfwords.1 (one ▸ List.mem_singleton_self _)).1
  · cases h

/-- What is encoded has room in the fields of the instruction. -/
theorem check_bitmask {bitmask : Bitmask} (hzero : rd.isZero = false)
    (h : Bitmask.encode value rd.width = .ok (some bitmask)) :
    (Form.logicalImmediate .orr rd (.zero rd.view) bitmask).check = .ok () := by
  obtain ⟨k, hk, width⟩ := rd.exists_width_eq
  rw [width] at h
  obtain ⟨run, ⟨fits, -⟩, rfl⟩ := (Bitmask.encode_eq_some_iff hk).1 h
  have narrow : 2 ^ k ≤ 2 ^ 6 := Nat.pow_le_pow_right (by decide) (by omega)
  have wide : rd.is64 = true ∨ run.fields.n = 0 := by
    cases h64 : rd.is64 with
    | true => exact .inl rfl
    | false =>
      have size := fits.size_le
      rw [← width, Register.width, h64, if_neg Bool.false_ne_true] at size
      exact .inr (if_neg (by omega))
  simp only [Form.check, Form.checkDestination, Form.checkWidths, bind_eq_ok_iff,
    require_eq_ok_iff, Bool.or_eq_true, decide_eq_true_eq, Bool.not_eq_true']
  exact ⟨fits.fields_lt narrow, wide, rfl, require_eq_ok_iff.2 (by rw [hzero]; rfl), rfl⟩

/-- A sequence of halfwords starts with one that is left over and replaces the others. -/
theorem isSequence_and_check_sequence {inverted : Bool}
    (hne : ∃ i < rd.width / 16, halfword value i ≠ if inverted then 0xffff else 0)
    (hstack : rd.isStack = false) :
    IsSequence rd (sequence rd ((List.range (rd.width / 16)).map (halfword value)) inverted) ∧
      ∀ f ∈ sequence rd ((List.range (rd.width / 16)).map (halfword value)) inverted,
        f.check = .ok () := by
  have members : ∀ p ∈ ((List.range (rd.width / 16)).map (halfword value)).zipIdx.filter
      (·.1 ≠ if inverted then 0xffff else 0), p.1 < 2 ^ 16 ∧ p.2 < rd.width / 16 := by
    intro p hp
    obtain ⟨hi, half⟩ := mem_zipIdx_halfwords.1 (List.mem_of_mem_filter hp)
    exact ⟨half ▸ halfword_lt value p.2, hi⟩
  have length := length_sequence rd value (rd.width / 16) inverted
  have pos : 0 < leftOver value (rd.width / 16) inverted := by
    obtain ⟨i, hi, hne⟩ := hne
    exact List.countP_pos_iff.2 ⟨i, List.mem_range.2 hi, decide_eq_true hne⟩
  rw [sequence] at length ⊢
  dsimp only at length ⊢
  generalize List.filter _ _ = l at members length
  cases l with
  | nil => exact absurd length (Nat.ne_of_lt pos)
  | cons p rest =>
    obtain ⟨⟨himm, hhw⟩, hrest⟩ := List.forall_mem_cons.1 members
    have replaced : ∀ f ∈ rest.map fun (imm16, hw) => Form.moveWide .movk rd imm16 hw,
        f.check = .ok () := List.forall_mem_map.2 fun q hq =>
      check_moveWide_iff.2 ⟨(hrest q hq).1, (hrest q hq).2, hstack⟩
    cases inverted with
    | false =>
      exact ⟨.wide (by decide) _ _ rest,
        List.forall_mem_cons.2 ⟨check_moveWide_iff.2 ⟨himm, hhw, hstack⟩, replaced⟩⟩
    | true =>
      exact ⟨.wide (by decide) _ _ rest,
        List.forall_mem_cons.2 ⟨check_moveWide_iff.2 ⟨by omega, hhw, hstack⟩, replaced⟩⟩

/-- **The instructions that are chosen for a value materialize it.** -/
theorem materializes_of_selects (hrd : rd.isGeneral) (h : Selects rd value fs) :
    Materializes rd (BitVec.ofNat rd.width value) fs := by
  have built := Register.isBuilt_of_isGeneral hrd
  have hzero := Register.isZero_of_isGeneral hrd
  have hstack := Register.isStack_of_isGeneral hrd
  have hw16 : 16 ∣ rd.width := by rcases rd.width_eq_or with h | h <;> omega
  obtain ⟨isSequence, check⟩ : IsSequence rd fs ∧ ∀ f ∈ fs, f.check = .ok () := by
    cases h with
    | halfword direct =>
      obtain ⟨himm, hhw⟩ := lt_of_moveWide? direct
      exact ⟨.wide (by decide) _ _ [],
        List.forall_mem_singleton.2 (check_moveWide_iff.2 ⟨himm, hhw, hstack⟩)⟩
    | complement _ inverse =>
      obtain ⟨himm, hhw⟩ := lt_of_moveWide? inverse
      exact ⟨.wide (by decide) _ _ [],
        List.forall_mem_singleton.2 (check_moveWide_iff.2 ⟨himm, hhw, hstack⟩)⟩
    | bitmask _ _ encode _ =>
      exact ⟨.bitmask _ (Register.isBuilt_zero _),
        List.forall_mem_singleton.2 (check_bitmask hzero encode)⟩
    | sequence direct inverse _ =>
      exact isSequence_and_check_sequence (exists_halfword_ne hw16 direct inverse _) hstack
  refine ⟨isSequence, check, fun m => ⟨m.writeAt rd (BitVec.ofNat rd.width value), ?_,
    Machine.readAt_writeAt_self built hzero rd.width_le _⟩⟩
  rw [Machine.run_words check (isSequence.isBuilt built), executeAll_of_selects m built h]

/-- **No sequence that materializes a value is shorter** than the one that is chosen for it. -/
theorem length_le_of_materializes (hrd : rd.isGeneral) (h : Selects rd value fs)
    (hgs : Materializes rd (BitVec.ofNat rd.width value) gs) : fs.length ≤ gs.length := by
  have built := Register.isBuilt_of_isGeneral hrd
  have hzero := Register.isZero_of_isGeneral hrd
  cases h with
  | halfword => exact hgs.isSequence.length_pos
  | complement => exact hgs.isSequence.length_pos
  | bitmask => exact hgs.isSequence.length_pos
  | sequence _ _ encode =>
    cases hgs.isSequence with
    | bitmask =>
      -- the value would have been encoded
      obtain ⟨b, hb⟩ := exists_encode_of_materializes built hzero hgs
      cases (encode hzero).symm.trans hb
    | wide hop imm16 hw replacements =>
      rw [length_sequence, List.length_cons, List.length_map]
      exact (leftOver_prefersInverted_le value _ _).trans
        (leftOver_le_of_materializes built hzero hop hgs)

/-- What is chosen has at most one instruction for each halfword. -/
theorem Selects.length_le (h : Selects rd value fs) : fs.length ≤ rd.width / 16 := by
  have pos : 1 ≤ rd.width / 16 := by rcases rd.width_eq_or with h | h <;> omega
  cases h with
  | halfword => exact pos
  | complement => exact pos
  | bitmask => exact pos
  | sequence =>
    rw [length_sequence]
    exact leftOver_le value _ _

end Move

/-! ## The move of an immediate -/

namespace Emit

/-- Forms that pass their checks are emitted, whatever the state. -/
theorem apply_forms {fs : List Form} (h : ∀ f ∈ fs, f.check = .ok ()) (s : Emitter) :
    (forms fs).apply s = (.ok (), emitted s fs s.pool) := by
  rw [forms_eq]
  induction fs generalizing s with
  | nil =>
    rw [emitted_nil]
    rfl
  | cons f fs ih =>
    obtain ⟨check, checks⟩ := List.forall_mem_cons.1 h
    have rest := ih checks (emitted s [f] s.pool)
    rw [emitted_emitted] at rest
    have step : (f :: fs).forM form = form f >>= fun _ => fs.forM form := rfl
    rw [step, apply_bind, apply_form, check]
    exact rest

end Emit

namespace Operation

variable {rd : Register}

/-- **The move of an immediate** to a general-purpose register.

* If the width admits the immediate, then instructions are emitted that do not depend on the state,
  whose pool is kept. From every machine they leave the immediate modulo the width in the register
  and change nothing else. They are one `orr`, or a move wide with replacements, and no such
  sequence that materializes the immediate is shorter. There is at most one for each halfword.
* Other immediates are rejected, and nothing is emitted.

**Proof sketch.** A sequence that starts with a move wide has an instruction for each halfword that
the start does not fill in (`AArch64.Move.leftOver_le_of_materializes`), and the chosen start
leaves the fewest over. An immediate that one `orr` materializes is encoded as a bitmask
(`AArch64.Move.exists_encode_of_materializes`). -/
theorem mov_immediate_shortest (hrd : rd.isGeneral) (imm : Int) :
    (Immediate.Admits rd.width imm → ∃ fs : List Form,
      (∀ s, (mov rd (.immediate imm)).emit.apply s = (.ok (), Emit.emitted s fs s.pool)) ∧
      (∀ m : Machine, m.run (fs.map Form.word) =
        some (m.writeAt rd (BitVec.ofInt rd.width imm))) ∧
      Move.Materializes rd (BitVec.ofInt rd.width imm) fs ∧
      (∀ gs, Move.Materializes rd (BitVec.ofInt rd.width imm) gs → fs.length ≤ gs.length) ∧
      fs.length ≤ rd.width / 16) ∧
    (¬ Immediate.Admits rd.width imm → ∀ s, (mov rd (.immediate imm)).emit.apply s =
      (.error (.rejected (.immediateRange imm)), s)) := by
  have emit : (mov rd (.immediate imm)).emit =
      Emit.lift (Move.immediateForms rd imm) >>= Emit.forms :=
    if_neg (by simp [Register.isStack_of_isGeneral hrd])
  rw [Immediate.admits_iff_atWidth?]
  rcases Move.immediateForms_cases rd imm with ⟨imm', himm, fs, hfs, selects⟩ | ⟨himm, rejected⟩
  · refine ⟨fun _ => ⟨fs, ?_⟩, fun h => absurd ⟨imm', himm⟩ h⟩
    have materializes := Move.materializes_of_selects hrd selects
    have built := materializes.isSequence.isBuilt (Register.isBuilt_of_isGeneral hrd)
    have bits : BitVec.ofNat rd.width (Immediate.toBits imm' rd.width) =
        BitVec.ofInt rd.width imm := by
      rw [Immediate.ofNat_toBits, Immediate.ofInt_of_atWidth? rd.width_eq_or himm]
    rw [← bits]
    refine ⟨fun s => ?_, fun m => ?_, materializes, fun gs hgs =>
      Move.length_le_of_materializes hrd selects hgs, selects.length_le⟩
    · rw [emit, hfs]
      exact Emit.apply_forms materializes.check s
    · rw [Machine.run_words materializes.check built,
        Move.executeAll_of_selects m (Register.isBuilt_of_isGeneral hrd) selects]
  · refine ⟨fun ⟨imm', admitted⟩ => (Option.some_ne_none imm' (admitted.symm.trans himm)).elim,
      fun _ s => ?_⟩
    rw [emit, rejected]
    rfl

/-- Two halfwords of `0xffff` between two others: no sequence has less than two instructions. The
same register does not take a number of 33 bits in its narrow view. -/
theorem mov_immediate_shortest_inverted :
    (⟨3, .x⟩ : Register).isGeneral ∧ Immediate.Admits 64 (-0xedcb0000a988) ∧
    (∃ fs : List Form, fs.length = 2 ∧
      (∀ s, (mov ⟨3, .x⟩ (.immediate (-0xedcb0000a988))).emit.apply s =
        (.ok (), Emit.emitted s fs s.pool)) ∧
      (∀ m : Machine, m.run (fs.map Form.word) =
        some (m.writeAt ⟨3, .x⟩ 0xffff1234ffff5678#64)) ∧
      ∀ gs, Move.Materializes ⟨3, .x⟩ 0xffff1234ffff5678#64 gs → 2 ≤ gs.length) ∧
    ¬ Immediate.Admits 32 (2 ^ 32) ∧
    ∀ s, (mov ⟨3, .w⟩ (.immediate (2 ^ 32))).emit.apply s =
      (.error (.rejected (.immediateRange (2 ^ 32))), s) := by
  have general : (⟨3, .x⟩ : Register).isGeneral := rfl
  have general' : (⟨3, .w⟩ : Register).isGeneral := rfl
  have wide : Immediate.Admits 64 (-0xedcb0000a988) := .inl rfl
  have narrow : ¬ Immediate.Admits 32 (2 ^ 32) := by
    rw [Immediate.Admits]
    omega
  obtain ⟨fs, emits, run, -, shortest, -⟩ :=
    (mov_immediate_shortest general (-0xedcb0000a988)).1 wide
  have words := congrArg (fun t : Except Fault Unit × Emitter => t.2.code.words.size)
    (emits (.new .a64))
  have length : fs.length = 2 := by
    have size : (Emit.emitted (.new .a64) fs (Emitter.new .a64).pool).code.words.size =
        fs.length := by
      simp [Emit.emitted, Emitter.new, CodeBuffer.empty]
    exact (words.trans size).symm
  exact ⟨general, wide, ⟨fs, length, emits, run, fun gs hgs => length ▸ shortest gs hgs⟩, narrow,
    (mov_immediate_shortest general' (2 ^ 32)).2 narrow⟩

end Operation

end AArch64
