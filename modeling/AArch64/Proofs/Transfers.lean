import AArch64.Proofs.Sums

/-!
# What loads and stores do

A load or store accesses memory once, at the address of its addressing mode, and transfers the value
to or from its register. This holds of all of its emissions: with a scaled or an unscaled offset,
with a base that is changed by the access, with an index register, and of the sequences that compute
the address in a scratch register or change the base on their own.

## Main definitions

* `AArch64.MemOperand.address`, `AArch64.MemOperand.baseAfter` — the address that is accessed, and
  what the base is changed to.
* `AArch64.Emit.IsTransfer` — what a load or store leaves of a machine.

## Main results

* `AArch64.LoadStore.execute_of_offsetForm?`, `AArch64.LoadStore.execute_of_registerForm?` — the
  forms that access the address directly.
* `AArch64.Emit.runs_loadStore` — the words of a load or store, of whatever emission.
* `AArch64.Operation.transfer_emit` — what loads and stores do.
-/

set_option autoImplicit false

namespace AArch64

namespace MemOperand

/-- The address that is accessed. -/
def address (m : Machine) : MemOperand → BitVec 64
  | .offset base imm | .preIndex base imm => m.read base + BitVec.ofInt 64 imm
  | .postIndex base _ => m.read base
  | .registerOffset base index extend amount =>
    m.read base + extend.apply 64 (m.read index) <<< amount

/-- What the base is changed to, if it is changed. -/
def baseAfter (m : Machine) : MemOperand → BitVec 64
  | .preIndex base imm | .postIndex base imm => m.read base + BitVec.ofInt 64 imm
  | mem => m.read mem.base

/-- The base, if it is changed. -/
def writtenBack (mem : MemOperand) : List Register :=
  if mem.writesBack then [mem.base] else []

end MemOperand

/-! ## Transfers -/

namespace Machine

variable {m m' : Machine} {op : LoadStoreOp} {rt q : Register} {address : BitVec 64}

/-- A transfer is one access. -/
theorem accesses_transfer (m : Machine) (op : LoadStoreOp) (rt : Register) (address : BitVec 64) :
    (m.transfer op rt address).accesses =
      m.accesses ++ [{ isLoad := op.isLoad, address, size := op.size rt }] := by
  rw [transfer]
  split
  · next load => rw [load]; rfl
  · next store => rw [eq_false_of_ne_true store]; rfl

/-- A transfer leaves the flags. -/
theorem flags_transfer : (m.transfer op rt address).flags = m.flags := by
  rw [transfer]
  split
  · exact flags_write
  · rfl

/-- A load leaves the memory. -/
theorem memory_transfer_of_load (h : op.isLoad) :
    (m.transfer op rt address).memory = m.memory := by
  rw [transfer, if_pos h]
  exact memory_write

/-- A store writes the low bytes of the register. -/
theorem memory_transfer_of_store (h : op.isLoad = false) :
    (m.transfer op rt address).memory =
      m.memory.store address (op.size rt) (m.readAt (8 * op.size rt) rt) := by
  rw [transfer, if_neg (by simp [h])]
  rfl

/-- A load writes the bytes, extended, to the register. -/
theorem read_transfer_self (h : op.isLoad) (hrt : rt.IsBuilt) (hzero : rt.isZero = false) :
    (m.transfer op rt address).read rt =
      op.extended rt (m.memory.load address (op.size rt)) := by
  rw [transfer, if_pos h]
  exact read_write_self hrt hzero

/-- A transfer changes no register but the one that is loaded. -/
theorem read_transfer (h : op.isLoad = false ∨ rt.code ≠ q.code) :
    (m.transfer op rt address).read q = m.read q := by
  rw [transfer]
  split
  · next load =>
    refine read_write_of_ne fun code => ?_
    rcases h with store | other
    · rw [store] at load
      cases load
    · exact other code.symm
  · rfl

/-- Machines that agree on the transfer register agree after the transfer. -/
theorem AgreesBut.transfer {changed : Register → Prop} (h : m.AgreesBut changed m')
    (hrt : rt.IsBuilt) (kept : ¬ changed rt) (op : LoadStoreOp) (address : BitVec 64) :
    (m.transfer op rt address).AgreesBut changed (m'.transfer op rt address) where
  read q hq := by
    by_cases same : op.isLoad = false ∨ rt.code ≠ q.code
    · rw [read_transfer same, read_transfer same, h.read q hq]
    · simp only [not_or, Bool.not_eq_false, not_not] at same
      obtain ⟨load, code⟩ := same
      rw [read_congr _ code.symm, read_congr _ code.symm]
      cases hzero : rt.isZero with
      | true => rw [read_of_isZero hzero, read_of_isZero hzero]
      | false =>
        rw [read_transfer_self load hrt hzero, read_transfer_self load hrt hzero, h.memory]
  flags := by rw [flags_transfer, flags_transfer, h.flags]
  memory := by
    cases hload : op.isLoad with
    | true => rw [memory_transfer_of_load hload, memory_transfer_of_load hload, h.memory]
    | false =>
      rw [memory_transfer_of_store hload, memory_transfer_of_store hload, h.memory,
        h.readAt kept]
  accesses := by rw [accesses_transfer, accesses_transfer, h.accesses]

end Machine

/-! ## Direct forms -/

namespace LoadStore

variable {op : LoadStoreOp} {rt base index : Register} {f : Form} (m : Machine)

/-- An access without offset is a transfer at the base. -/
theorem execute_loadStoreUnsigned_zero :
    (Form.loadStoreUnsigned op rt base 0).execute m = some (m.transfer op rt (m.read base)) := by
  rw [Form.execute, Nat.zero_mul]
  exact congrArg (fun a => some (m.transfer op rt a)) (BitVec.add_zero _)

/-- The forms of an offset access the address. -/
theorem execute_of_offsetForm? {offset : Int} (h : offsetForm? op rt base offset = .ok (some f)) :
    f.execute m = some (m.transfer op rt (m.read base + BitVec.ofInt 64 offset)) := by
  rw [offsetForm?_eq] at h
  have h := Except.ok.inj h
  split at h
  · next fits =>
    obtain rfl := Option.some.inj h
    obtain ⟨nonnegative, multiple, -⟩ := fits
    have power : (2 ^ op.sizeLog2 rt : Int) = (op.size rt : Nat) := by
      rw [LoadStoreOp.size]
      norm_cast
    have whole : (((offset / 2 ^ op.sizeLog2 rt).toNat * op.size rt : Nat) : Int) = offset := by
      rw [power] at multiple ⊢
      rw [Int.natCast_mul, Int.toNat_of_nonneg (Int.ediv_nonneg nonnegative (Int.natCast_nonneg _))]
      exact Int.ediv_mul_cancel (Int.dvd_of_emod_eq_zero multiple)
    rw [Form.execute, ← BitVec.ofInt_natCast, whole]
  · split at h
    · obtain ⟨⟩ := h
      rfl
    · cases h

/-- The form of a register offset accesses the address. -/
theorem execute_of_registerForm? {extend : Extend} {amount : Nat}
    (h : registerForm? op rt base index extend amount = some f) :
    f.execute m = some (m.transfer op rt
      (m.read base + extend.apply 64 (m.read index) <<< amount)) := by
  obtain ⟨-, hamount, rfl⟩ := eq_of_registerForm? h
  have shift : (if decide (amount ≠ 0) then op.sizeLog2 rt else 0) = amount := by
    rcases hamount with rfl | rfl
    · rfl
    · split <;> simp_all
  rw [Form.execute, shift]
  rfl

/-- A register offset, as the operand of an addition, is what is added to the base. -/
theorem value_indexOperand (extend : Extend) (amount : Nat) :
    (indexOperand index extend amount).value m 64 =
      extend.apply 64 (m.read index) <<< amount := by
  rw [indexOperand]
  split
  · next doubleword =>
    subst doubleword
    exact congrArg (fun x : BitVec 64 => x <<< amount)
      (BitVec.setWidth_eq ((m.read index).setWidth 64)).symm
  · rfl

end LoadStore

/-! ## Emissions -/

/-- What is read may be written only as a destination. -/
theorem not_mayWrite {destinations sources : List Register} {pool : RegisterSet} {q : Register}
    (hsource : q ∈ sources) (hdestinations : ∀ d ∈ destinations, d.code ≠ q.code) :
    ¬ MayWrite destinations sources pool q := by
  rintro (⟨d, hd, code⟩ | ⟨-, other⟩)
  · exact hdestinations d hd code
  · exact other q hsource rfl

namespace Emit

variable {s : Emitter} {m : Machine} {op : LoadStoreOp} {rt base : Register} {operand : Operand}

/-- The address is computed in a scratch register, which is none of those that are read. -/
theorem runs_accessThroughScratch (sources : List Register) {reserved : List Register}
    (hrt : rt.IsBuilt) (hbase : base.IsBuilt) (hoperand : ∀ r ∈ operand.register?, r.IsBuilt)
    (hsource : rt ∈ sources) (hreserved : ∀ q ∈ sources, q ∈ reserved) :
    (accessThroughScratch op rt base reserved operand).Runs s m fun _ p m' => p = s.pool ∧
      (m.transfer op rt (m.read base + operand.value m 64)).AgreesBut
        (MayWrite [] sources s.pool) m' := by
  refine .scope (.reserve_bind (.acquire_bind fun temp htemp hgeneral hmem hview => ?_))
  have zero := temp.isZero_of_isGeneral hgeneral
  have width : temp.width = 64 := by rw [Register.width, Register.is64, hview]; rfl
  refine .bind (runs_addSub htemp hbase hoperand) ?_
  rintro _ fs p m₁ ⟨-, hsum⟩
  refine .terminal (by simp [Form.registers, hrt, htemp]) fun _ =>
    ⟨_, LoadStore.execute_loadStoreUnsigned_zero m₁, rfl, ?_⟩
  have agrees : m.AgreesBut (MayWrite [] sources s.pool) m₁ := by
    refine (hsum.agreesBut_of_setsFlags rfl fun q code => .inl ⟨temp, .head _, code.symm⟩).mono
      fun r hr => ?_
    exact .of_contains_eraseMany hreserved (hr.contains_of_scratch hmem)
  rw [hsum.read_sum htemp zero width]
  exact agrees.transfer hrt (not_mayWrite hsource (List.forall_mem_nil _)) op _

/-- The base is changed by an addition that keeps the transfer register. -/
theorem runs_updateBase (hbase : base.IsBuilt) (hwide : base.is64) (offset : Int) :
    (updateBase rt base offset).Runs s m fun _ p m' => p = s.pool ∧
      m.AgreesBut (MayWrite [base] [rt, base] s.pool) m' ∧
      (base.isZero = false → m'.read base = m.read base + BitVec.ofInt 64 offset) := by
  have width : base.width = 64 := by rw [Register.width, if_pos hwide]
  have hoperand : ∀ r ∈ (Operand.immediate offset).register?, r.IsBuilt := by
    rintro r ⟨⟩
  refine .scope (.reserve_bind ((runs_addSub hbase hbase hoperand).mono ?_))
  rintro _ p m' ⟨-, hsum⟩
  refine ⟨rfl, ?_, fun zero => hsum.read_sum hbase zero width⟩
  refine (hsum.agreesBut_of_setsFlags rfl fun q code => .inl ⟨base, .head _, code.symm⟩).mono
    fun r hr => ?_
  rcases hr with hr | ⟨hr, other⟩
  · exact .inl hr
  · obtain ⟨member, others⟩ := RegisterSet.contains_eraseMany_iff.1 hr
    refine .inr ⟨member, fun q hq => ?_⟩
    rcases List.mem_cons.1 hq with rfl | hq
    · exact others q (.head _)
    · exact other q hq

/-- What a load or store leaves of a machine: it transfers at the address, and changes the base if
it writes back. Besides, registers may change. -/
structure IsTransfer (m : Machine) (changed : Register → Prop) (op : LoadStoreOp) (rt : Register)
    (mem : MemOperand) (m' : Machine) : Prop where
  agreesBut : (m.transfer op rt (mem.address m)).AgreesBut changed m'
  apart : mem.writesBack → rt.code ≠ mem.base.code
  base : mem.writesBack → m'.read mem.base = mem.baseAfter m

/-- The registers of the forms of loads and stores. -/
theorem isBuilt_of_within {f : Form} (h : f.Within (fun _ => True) false) :
    ∀ r ∈ f.registers, r.IsBuilt :=
  h.isBuilt

/-- An addressing mode that keeps the base. -/
theorem IsTransfer.of_keeps_base {changed : Register → Prop} {mem : MemOperand} {m' : Machine}
    (h : (m.transfer op rt (mem.address m)).AgreesBut changed m') (hmem : mem.writesBack = false) :
    IsTransfer m changed op rt mem m' where
  agreesBut := h
  apart back := absurd (hmem.symm.trans back) Bool.false_ne_true
  base back := absurd (hmem.symm.trans back) Bool.false_ne_true

/-- The base of a form is not the zero register. -/
theorem isZero_of_check_unsigned {imm12 : Nat}
    (h : (Form.loadStoreUnsigned op rt base imm12).check = .ok ()) : base.isZero = false :=
  (LoadStore.check_loadStoreUnsigned_iff.1 h).2.2

/-- The base is not the zero register. -/
theorem isZero_of_check_indexed {offset : Int} {mode : IndexMode}
    (h : (Form.loadStoreIndexed op rt base offset mode).check = .ok ()) : base.isZero = false :=
  (LoadStore.check_loadStoreIndexed_iff.1 h).2.2.1

/-- The transfer register is kept when the base is changed. -/
theorem not_mayWrite_transfer (hoverlap : rt.code ≠ base.code) {pool : RegisterSet} :
    ¬ MayWrite [base] [rt, base] pool rt :=
  not_mayWrite (.head _) (List.forall_mem_singleton.2 hoverlap.symm)

/-- The base is changed by the form, or before the access. -/
theorem runs_preIndex (hrt : rt.IsBuilt) (hbase : base.IsBuilt) (hwide : base.is64)
    (hoverlap : rt.code ≠ base.code) (offset : Int) :
    Runs (match LoadStore.indexedForm? op rt base offset .preIndex with
      | some f => terminal f
      | none => do
        updateBase rt base offset
        terminal (.loadStoreUnsigned op rt base 0)) s m fun _ p m' => p = s.pool ∧
      IsTransfer m (MayWrite [base] [rt, base] s.pool) op rt (.preIndex base offset) m' := by
  split
  · next f hf =>
    have built := isBuilt_of_within
      (LoadStore.within_of_indexedForm? hrt hbase (fun _ _ => trivial) trivial hf)
    obtain ⟨-, rfl⟩ := LoadStore.eq_of_indexedForm? hf
    exact .terminal built fun hcheck => ⟨_, rfl, rfl,
      .write (fun q code => .inl ⟨base, .head _, code.symm⟩) _, fun _ => hoverlap,
      fun _ => Machine.read_write_self hbase (isZero_of_check_indexed hcheck)⟩
  · refine .bind (runs_updateBase hbase hwide offset) ?_
    rintro _ fs _ m₁ ⟨rfl, agrees, changed⟩
    refine .terminal (by simp [Form.registers, hrt, hbase]) fun hcheck =>
      ⟨_, LoadStore.execute_loadStoreUnsigned_zero m₁, rfl, ?_⟩
    have changed := changed (isZero_of_check_unsigned hcheck)
    rw [changed]
    exact ⟨agrees.transfer hrt (not_mayWrite_transfer hoverlap) op _, fun _ => hoverlap,
      fun _ => (Machine.read_transfer (.inr hoverlap)).trans changed⟩

/-- The base is changed by the form, or after the access. -/
theorem runs_postIndex (hrt : rt.IsBuilt) (hbase : base.IsBuilt) (hwide : base.is64)
    (hoverlap : rt.code ≠ base.code) (offset : Int) :
    Runs (match LoadStore.indexedForm? op rt base offset .postIndex with
      | some f => terminal f
      | none => do
        terminal (.loadStoreUnsigned op rt base 0)
        updateBase rt base offset) s m fun _ p m' => p = s.pool ∧
      IsTransfer m (MayWrite [base] [rt, base] s.pool) op rt (.postIndex base offset) m' := by
  split
  · next f hf =>
    have built := isBuilt_of_within
      (LoadStore.within_of_indexedForm? hrt hbase (fun _ _ => trivial) trivial hf)
    obtain ⟨-, rfl⟩ := LoadStore.eq_of_indexedForm? hf
    exact .terminal built fun hcheck => ⟨_, rfl, rfl,
      .write (fun q code => .inl ⟨base, .head _, code.symm⟩) _, fun _ => hoverlap,
      fun _ => Machine.read_write_self hbase (isZero_of_check_indexed hcheck)⟩
  · refine .bind (P := fun _ p m₁ => p = s.pool ∧ m₁ = m.transfer op rt (m.read base) ∧
        base.isZero = false) (.terminal (by simp [Form.registers, hrt, hbase]) fun hcheck =>
      ⟨_, LoadStore.execute_loadStoreUnsigned_zero m, rfl, rfl, isZero_of_check_unsigned hcheck⟩) ?_
    rintro _ fs _ _ ⟨rfl, rfl, zero⟩
    refine (runs_updateBase hbase hwide offset).mono ?_
    rintro _ p m' ⟨hp, agrees, changed⟩
    refine ⟨hp, agrees, fun _ => hoverlap, fun _ => (changed zero).trans ?_⟩
    rw [Machine.read_transfer (.inr hoverlap)]
    rfl

/-- **A load or store transfers at the address of its addressing mode**, and changes the base if it
writes back. Besides, registers of the pool may change that are neither the transfer register nor
those of the addressing mode.

**Proof sketch.** The forms that access the address directly do what is asked for. Otherwise the
address is computed in a register of the pool (`runs_accessThroughScratch`), or the base is changed
before or after an access without offset (`runs_preIndex`, `runs_postIndex`). The transfer register
is not the base then, so each of the two keeps what the other one has done. -/
theorem runs_loadStore {mem : MemOperand} (hrt : rt.IsBuilt)
    (hmem : ∀ r ∈ mem.registers, r.IsBuilt) :
    (loadStore op rt mem).Runs s m fun _ p m' => p = s.pool ∧
      IsTransfer m (MayWrite mem.writtenBack (rt :: mem.registers) s.pool) op rt mem m' := by
  refine .require_bind fun hwide => .require_bind fun hoverlap => ?_
  cases mem with
  | offset base offset =>
    have hbase : base.IsBuilt := hmem base (.head _)
    refine .lift_bind fun direct hdirect => ?_
    cases direct with
    | some f =>
      have built := isBuilt_of_within
        (LoadStore.within_of_offsetForm? hrt hbase (fun _ _ => trivial) hdirect)
      exact .terminal built fun _ => ⟨_, LoadStore.execute_of_offsetForm? m hdirect, rfl,
        .of_keeps_base (.refl _) rfl⟩
    | none =>
      refine (runs_accessThroughScratch [rt, base] hrt hbase (by rintro r ⟨⟩) (.head _)
        (by simp)).mono ?_
      rintro _ p m' ⟨hp, agrees⟩
      exact ⟨hp, .of_keeps_base agrees rfl⟩
  | preIndex base offset =>
    exact runs_preIndex hrt (hmem base (.head _)) hwide (of_decide_eq_true hoverlap) offset
  | postIndex base offset =>
    exact runs_postIndex hrt (hmem base (.head _)) hwide (of_decide_eq_true hoverlap) offset
  | registerOffset base index extend amount =>
    have hbase : base.IsBuilt := hmem base (.head _)
    have hindex : index.IsBuilt := hmem index (.tail _ (.head _))
    dsimp only
    split
    · next f hf =>
      have built := isBuilt_of_within
        (LoadStore.within_of_registerForm? hrt hbase hindex (fun _ _ => trivial) hf)
      exact .terminal built fun _ => ⟨_, LoadStore.execute_of_registerForm? m hf, rfl,
        .of_keeps_base (.refl _) rfl⟩
    · have hoperand := LoadStore.isBuilt_indexOperand hindex extend amount
      refine (runs_accessThroughScratch [rt, base, index] hrt hbase hoperand (.head _)
        (by simp)).mono ?_
      rintro _ p m' ⟨hp, agrees⟩
      rw [LoadStore.value_indexOperand] at agrees
      exact ⟨hp, .of_keeps_base agrees rfl⟩

end Emit

/-! ## Operations -/

namespace MemOperand

variable {mem : MemOperand}

/-- The base is changed if it is written back. -/
theorem mem_writtenBack {r : Register} (h : r ∈ mem.writtenBack) :
    mem.writesBack ∧ r = mem.base := by
  rw [writtenBack] at h
  split at h
  · next back => exact ⟨back, List.mem_singleton.1 h⟩
  · cases h

/-- The base is one of the registers of an operand. -/
theorem base_mem_registers (mem : MemOperand) : mem.base ∈ mem.registers := by
  cases mem <;> exact .head _

/-- A base that is not updated stays. -/
theorem baseAfter_of_keeps_base (h : mem.writesBack = false) (m : Machine) :
    mem.baseAfter m = m.read mem.base := by
  cases mem <;> first | rfl | cases h

end MemOperand

namespace Emit.IsTransfer

variable {m m' : Machine} {op : LoadStoreOp} {rt : Register} {mem : MemOperand}
  {pool : RegisterSet}

/-- The transfer register holds what the transfer has left in it. -/
theorem read_transfer (h : IsTransfer m (MayWrite mem.writtenBack (rt :: mem.registers) pool) op rt
    mem m') : m'.read rt = (m.transfer op rt (mem.address m)).read rt := by
  refine h.agreesBut.read rt (not_mayWrite (.head _) fun d hd => ?_)
  obtain ⟨back, rfl⟩ := MemOperand.mem_writtenBack hd
  exact (h.apart back).symm

/-- The base is what the addressing mode makes of it, unless it is loaded. -/
theorem read_base (h : IsTransfer m (MayWrite mem.writtenBack (rt :: mem.registers) pool) op rt
    mem m') (hbase : mem.writesBack ∨ op.isLoad = false ∨ rt.code ≠ mem.base.code) :
    m'.read mem.base = mem.baseAfter m := by
  cases hback : mem.writesBack with
  | true => exact h.base hback
  | false =>
    have kept : ¬ MayWrite mem.writtenBack (rt :: mem.registers) pool mem.base := by
      refine not_mayWrite (.tail _ mem.base_mem_registers) fun d hd => ?_
      exact absurd (hback.symm.trans (MemOperand.mem_writtenBack hd).1) Bool.false_ne_true
    rw [h.agreesBut.read _ kept, MemOperand.baseAfter_of_keeps_base hback]
    exact Machine.read_transfer (hbase.resolve_left (by simp [hback]))

/-- What is neither a destination nor a register of the pool is kept. -/
theorem read_of_not_mayWrite (h : IsTransfer m (MayWrite mem.writtenBack (rt :: mem.registers) pool)
    op rt mem m') {r : Register}
    (hr : ¬ MayWrite (mem.destinations op rt) (mem.sources op rt) pool r) :
    m'.read r = m.read r := by
  have kept : ¬ MayWrite mem.writtenBack (rt :: mem.registers) pool r := by
    rintro (⟨d, hd, code⟩ | ⟨hpool, other⟩)
    · exact hr (.inl ⟨d, List.mem_append_right _ hd, code⟩)
    · exact hr (.inr ⟨hpool, fun q hq =>
        other q (List.mem_cons.2 (MemOperand.eq_or_mem_of_mem_sources hq))⟩)
  rw [h.agreesBut.read r kept]
  refine Machine.read_transfer ?_
  cases hload : op.isLoad with
  | false => exact .inl rfl
  | true =>
    refine .inr fun code => hr (.inl ⟨rt, List.mem_append_left _ ?_, code⟩)
    rw [LoadStoreOp.loaded, if_pos hload]
    exact .head _

end Emit.IsTransfer

namespace Operation

variable {op : LoadStoreOp} {rt : Register} {mem : MemOperand} {s s' : Emitter}

/-- **Loads and stores mean what they say.** Whenever the emission of a load or store returns, from
any pool, the words that it appends take every machine to one where

* memory was accessed once, at the address of the addressing mode, with the size of the operation;
* a load has kept memory, and its register, unless it is the zero register, holds the value at the
  address, extended as the operation says;
* a store has put the value of its register at the address, and changed no other byte;
* the base is what the addressing mode changes it to or, if it keeps the base, what it was, unless
  it is what has been loaded;
* the flags are what they were;
* nothing else has changed, except for registers of the pool that are not read.

**Proof sketch.** What the words do composes along the emission (`AArch64.Emit.runs_loadStore`), and
the word of a form does what the form does (`AArch64.Form.step_word`). -/
theorem transfer_emit (hbuilt : ∀ r ∈ (loadStore op rt mem).registers, r.IsBuilt)
    (h : (loadStore op rt mem).emit.apply s = (.ok (), s')) :
    ∃ ws : List Word, s'.code.words = s.code.words ++ ws.toArray ∧
      ∀ m : Machine,
        let address := mem.address m
        let size := op.size rt
        ∃ m', m.run ws = some m' ∧
          m'.accesses = m.accesses ++ [{ isLoad := op.isLoad, address, size }] ∧
          (op.isLoad → m'.memory = m.memory ∧
            (rt.isZero = false →
              m'.read rt = op.extended rt (m.memory.load address size))) ∧
          (op.isLoad = false →
            m'.memory = m.memory.store address size (m.readAt (8 * size) rt)) ∧
          (mem.writesBack ∨ op.isLoad = false ∨ rt.code ≠ mem.base.code →
            m'.read mem.base = mem.baseAfter m) ∧
          m'.flags = m.flags ∧
          ∀ r, ¬ MayWrite (mem.destinations op rt) (mem.sources op rt) s.pool r →
            m'.read r = m.read r := by
  simp only [registers, List.forall_mem_cons] at hbuilt
  obtain ⟨hrt, hmem⟩ := hbuilt
  obtain ⟨ws, hws, hrun⟩ :=
    Emit.Runs.exists_of_ok (fun m => Emit.runs_loadStore (m := m) hrt hmem) h
  refine ⟨ws, hws, fun m => ?_⟩
  obtain ⟨m', hm', -, htransfer⟩ := hrun m
  have agrees := htransfer.agreesBut
  refine ⟨m', hm', agrees.accesses.trans (m.accesses_transfer op rt _), fun hload => ⟨?_, ?_⟩,
    fun hstore => agrees.memory.trans (Machine.memory_transfer_of_store hstore),
    htransfer.read_base, agrees.flags.trans Machine.flags_transfer,
    fun r => htransfer.read_of_not_mayWrite⟩
  · exact agrees.memory.trans (Machine.memory_transfer_of_load hload)
  · exact fun hzero =>
      htransfer.read_transfer.trans (Machine.read_transfer_self hload hrt hzero)

/-- A store of a register of the pool, at the stack pointer and an offset that no form holds, which
changes the stack pointer. -/
def farStore : Operation :=
  .loadStore .str ⟨16, .w⟩ (.preIndex (.stack .x) 0x12345678)

/-- The stack pointer is changed with the help of register 17, and register 16 is kept for the
access. -/
theorem transfer_emit_farStore :
    (farStore.emit.apply (.new .a64)).1 = .ok () ∧
      ∃ ws : List Word, (farStore.emit.apply (.new .a64)).2.code.words =
          (Emitter.new .a64).code.words ++ ws.toArray ∧
        ∀ m : Machine, ∃ m', m.run ws = some m' ∧
          m'.accesses = m.accesses ++
            [{ isLoad := false, address := m.stack + BitVec.ofInt 64 0x12345678, size := 4 }] ∧
          m'.memory = m.memory.store (m.stack + BitVec.ofInt 64 0x12345678) 4
            (m.readAt (8 * 4) ⟨16, .w⟩) ∧
          m'.stack = m.stack + BitVec.ofInt 64 0x12345678 ∧ m'.flags = m.flags := by
  have returns : (farStore.emit.apply (.new .a64)).1 = .ok () := rfl
  have built : ∀ r ∈ farStore.registers, r.IsBuilt := by
    intro r hr
    rcases List.mem_pair.1 hr with rfl | rfl
    · exact .inl ⟨16, rfl⟩
    · exact Register.isBuilt_stack .x
  obtain ⟨ws, hws, hrun⟩ := transfer_emit built (Prod.ext returns rfl)
  refine ⟨returns, ws, hws, fun m => ?_⟩
  obtain ⟨m', hm', access, -, stored, base, flags, -⟩ := hrun m
  exact ⟨m', hm', access, stored rfl, base (.inl rfl), flags⟩

end Operation

end AArch64
