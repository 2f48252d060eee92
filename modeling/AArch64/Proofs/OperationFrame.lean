import AArch64.Emitter.Operation
import AArch64.Proofs.FormSelection
import AArch64.Proofs.Frame

/-!
# The frames of operations

An operation writes its destinations. Besides them it writes registers of the pool that it starts
with, and none of those that it reads. It writes the flags only if it is one that sets flags.

## Main definitions

* `AArch64.Operation.destinations`, `AArch64.Operation.sources`, `AArch64.Operation.setsFlags` —
  what an operation is there to write, and what it reads.

## Main results

* `AArch64.Operation.frames_emit` — the forms of an operation write only what it may write.
* `AArch64.Operation.effects_of_emit` — so do the words that it appends.
-/

set_option autoImplicit false

namespace AArch64

/-! ## Moves -/

namespace Move

variable {A : Register → Prop} {flags : Bool} {rd rm rn : Register}

/-- A move of an immediate writes its destination. -/
theorem within_moveWide (hrd : rd.IsBuilt) (h : A rd) (op : MoveWideOp) (imm16 hw : Nat) :
    (Form.moveWide op rd imm16 hw).Within A flags :=
  Form.within_of_keeps_flags (List.forall_mem_singleton.2 hrd) rfl h rfl

/-- The instructions that materialize an immediate write one register. -/
theorem within_of_immediateForms (hrd : rd.IsBuilt) (h : A rd) {imm : Int} {fs : List Form}
    (hfs : immediateForms rd imm = .ok fs) : ∀ f ∈ fs, f.Within A flags := by
  intro f hf
  rcases cases_of_mem_immediateForms hfs hf with ⟨op, imm16, hw, rfl⟩ | ⟨-, bitmask, rfl⟩
  · exact within_moveWide hrd h op imm16 hw
  · exact Form.within_of_keeps_flags
      (by simp [Form.registers, hrd, Register.isBuilt_zero]) rfl h rfl

/-- A copy, a shift and an extension write their destination and read the source in its view. -/
theorem within_registerForm (hrd : rd.IsBuilt) (hrm : rm.IsBuilt) (h : A rd) :
    (registerForm rd rm).Within A flags := by
  have hrm' := hrm.withView rd.view
  rw [registerForm]
  split
  · exact Form.within_of_keeps_flags (by simp [Form.registers, hrd, hrm']) rfl h rfl
  · exact Form.within_of_keeps_flags
      (by simp [Form.registers, hrd, hrm', Register.isBuilt_zero]) rfl h rfl

/-- So does a move of a bit field. -/
theorem within_bitfield (hrd : rd.IsBuilt) (hrn : rn.IsBuilt) (h : A rd) (op : BitfieldOp)
    (immr imms : Nat) : (Form.bitfield op rd rn immr imms).Within A flags :=
  Form.within_of_keeps_flags (by simp [Form.registers, hrd, hrn]) rfl h rfl

/-- So does the form that is chosen for a shifted register. -/
theorem within_of_shiftForm (hrd : rd.IsBuilt) (hrn : rn.IsBuilt) (h : A rd) {shift : Shift}
    {amount : Nat} {f : Form} (hf : shiftForm rd rn shift amount = .ok f) : f.Within A flags := by
  have hrn' := hrn.withView rd.view
  obtain ⟨-, -, ⟨op, immr, imms, rfl⟩ | ⟨-, rfl⟩⟩ := cases_of_shiftForm hf
  · exact within_bitfield hrd hrn' h op immr imms
  · exact Form.within_of_keeps_flags (by simp [Form.registers, hrd, hrn']) rfl h rfl

/-- So does the form that is chosen for an extended register. -/
theorem within_of_extendForm (hrd : rd.IsBuilt) (hrn : rn.IsBuilt) (h : A rd) {extend : Extend}
    {amount : Nat} {f : Form} (hf : extendForm rd rn extend amount = .ok f) :
    f.Within A flags := by
  obtain ⟨-, -, op, immr, imms, rfl⟩ := exists_of_extendForm hf
  exact within_bitfield hrd (hrn.withView rd.view) h op immr imms

end Move

namespace Emit

variable {s : Emitter} {flags : Bool} {rd : Register}

/-- The stack pointer gets an immediate through a scratch register. -/
theorem frames_movImmediate (hrd : rd.IsBuilt) (imm : Int) :
    (movImmediate rd imm).Frames s (MayWrite [rd] [] s.pool) flags fun _ p => p = s.pool := by
  have destination : MayWrite [rd] [] s.pool rd := .of_mem (.head _)
  rw [movImmediate]
  split
  · refine .scope (.acquire_bind fun temp htemp hgeneral hpool _ => .lift_bind fun fs hfs => ?_)
    have scratch : MayWrite [rd] [] s.pool temp := .inr ⟨hpool, List.forall_mem_nil _⟩
    refine .bind (.forms (Move.within_of_immediateForms htemp scratch hfs)) fun _ gs p hp => ?_
    refine .forget (.terminal (Form.within_of_keeps_flags ?_ rfl destination rfl))
    simp [Form.registers, hrd, htemp]
  · exact .lift_bind fun fs hfs => .forms (Move.within_of_immediateForms hrd destination hfs)

/-- A move writes its destination. For the stack pointer it may take a scratch register besides, but
then it reads no general-purpose register. -/
theorem frames_mov (hrd : rd.IsBuilt) {operand : Operand}
    (hoperand : ∀ r ∈ operand.register?, r.IsBuilt) :
    (mov rd operand).Frames s (MayWrite [rd] operand.register?.toList s.pool) flags
      fun _ p => p = s.pool := by
  have destination : MayWrite [rd] operand.register?.toList s.pool rd := .of_mem (.head _)
  cases operand with
  | immediate imm => exact frames_movImmediate hrd imm
  | register rm =>
    rw [mov]
    split
    · next hzero =>
      refine (frames_movImmediate hrd 0).mono (fun r hr h => ?_) id fun _ _ h => h
      refine h.mono (fun d hd _ => .of_mem hd) (fun q hq _ => .inr ⟨hq, ?_⟩) hr
      intro q' hq' hcode
      obtain rfl := List.mem_singleton.1 hq'
      have general := RegisterSet.isGeneral_of_contains hq
      have zero := Register.isZero_of_isGeneral general
      rw [Register.isZero, ← hcode] at zero
      exact Bool.false_ne_true (zero.symm.trans hzero)
    · exact .terminal (Move.within_registerForm hrd (hoperand rm rfl) destination)
  | shifted rn shift amount =>
    exact .lift_bind fun f hf =>
      .terminal (Move.within_of_shiftForm hrd (hoperand rn rfl) destination hf)
  | extended rn extend amount =>
    exact .lift_bind fun f hf =>
      .terminal (Move.within_of_extendForm hrd (hoperand rn rfl) destination hf)

end Emit

/-! ## Addition and subtraction -/

/-- The dual operation sets flags if the operation does. -/
theorem AddSubOp.setsFlags_dual (op : AddSubOp) : op.dual.setsFlags = op.setsFlags := by
  cases op <;> rfl

namespace AddSub

variable {A : Register → Prop} {op : AddSubOp} {rd rn : Register}

/-- The form that adds an immediate writes its destination, and the flags if the operation does. -/
theorem within_of_immediateForm? (hrd : rd.IsBuilt) (hrn : rn.IsBuilt) (h : A rd) {imm : Int}
    {f : Form} (hf : immediateForm? op rd rn imm = .ok (some f)) : f.Within A op.setsFlags := by
  obtain ⟨-, op', imm12, shifted, hop, rfl⟩ := exists_of_immediateForm? hf
  have flags : op'.setsFlags = op.setsFlags := by
    rcases hop with rfl | rfl
    · rfl
    · exact op.setsFlags_dual
  exact Form.within_of_written (by simp [Form.registers, hrd, hrn]) rfl h flags.le

/-- So does the form that adds a register. -/
theorem within_of_registerForm? (hrd : rd.IsBuilt) (hrn : rn.IsBuilt) (h : A rd)
    {operand : Operand} (hoperand : ∀ r ∈ operand.register?, r.IsBuilt) {f : Form}
    (hf : registerForm? op rd rn operand = some f) : f.Within A op.setsFlags := by
  obtain ⟨rm, hrm, hf⟩ := cases_of_registerForm? hf
  have built : ∀ r ∈ [rd, rn, rm], r.IsBuilt := by simp [hrd, hrn, hoperand rm hrm]
  rcases hf with ⟨shift, amount, rfl⟩ | ⟨extend, amount, rfl⟩
  · exact Form.within_of_written built rfl h id
  · exact Form.within_of_written built rfl h id

/-- So does the form that adds any operand. -/
theorem within_of_directForm? (hrd : rd.IsBuilt) (hrn : rn.IsBuilt) (h : A rd)
    {operand : Operand} (hoperand : ∀ r ∈ operand.register?, r.IsBuilt) {f : Form}
    (hf : directForm? op rd rn operand = .ok (some f)) : f.Within A op.setsFlags := by
  cases operand with
  | immediate imm => exact within_of_immediateForm? hrd hrn h hf
  | _ => exact within_of_registerForm? hrd hrn h hoperand (Except.ok.inj hf)

end AddSub

namespace Emit

variable {s : Emitter} {flags : Bool} {rd rn : Register} {operand : Operand}

/-- The emission through a scratch register writes the destination and the scratch register, which
is no source. -/
theorem frames_addSubThroughScratch (hrd : rd.IsBuilt) (hrn : rn.IsBuilt)
    (hoperand : ∀ r ∈ operand.register?, r.IsBuilt) (op : AddSubOp) :
    (addSubThroughScratch op rd rn operand).Frames s
      (MayWrite [rd] (rn :: operand.register?.toList) s.pool) op.setsFlags
      fun _ p => p = s.pool := by
  have destination : MayWrite [rd] (rn :: operand.register?.toList) s.pool rd := .of_mem (.head _)
  refine .scopeFor fun pool hpool => ?_
  refine .acquire_bind fun temp htemp _ hmem _ => ?_
  refine .bind ((frames_mov htemp hoperand).of_scratch hmem hpool id) fun _ gs p hp => ?_
  split
  · next f hf =>
    refine .forget (.terminal (AddSub.within_of_registerForm? hrd hrn destination ?_ hf))
    rintro r ⟨⟩
    exact htemp
  · exact .throw

/-- An addition or subtraction writes its destination. -/
theorem frames_addSub (hrd : rd.IsBuilt) (hrn : rn.IsBuilt)
    (hoperand : ∀ r ∈ operand.register?, r.IsBuilt) (op : AddSubOp) :
    (addSub op rd rn operand).Frames s (MayWrite [rd] (rn :: operand.register?.toList) s.pool)
      op.setsFlags fun _ p => p = s.pool := by
  refine .require_bind fun _ => .require_bind fun _ => .require_bind fun _ =>
    .lift_bind fun direct hdirect => ?_
  cases direct with
  | none => exact frames_addSubThroughScratch hrd hrn hoperand op
  | some f =>
    exact .terminal (AddSub.within_of_directForm? hrd hrn (.of_mem (.head _)) hoperand hdirect)

end Emit

/-! ## Logical operations -/

namespace Logical

variable {A : Register → Prop} {op : LogicalOp} {invert : Bool} {rd rn rm : Register}

/-- A combination with a shifted register writes its destination, and the flags if it is the one
that sets them. -/
theorem within_logicalShifted (hrd : rd.IsBuilt) (hrn : rn.IsBuilt) (hrm : rm.IsBuilt) (h : A rd)
    (shift : Shift) (amount : Nat) :
    (Form.logicalShifted op invert rd rn rm shift amount).Within A (decide (op = .ands)) :=
  Form.within_of_written (by simp [Form.registers, hrd, hrn, hrm]) rfl h id

/-- So does the form that is chosen for any operand. -/
theorem within_of_directForm? (hrd : rd.IsBuilt) (hrn : rn.IsBuilt) (h : A rd)
    {operand : Operand} (hoperand : ∀ r ∈ operand.register?, r.IsBuilt) {f : Form}
    (hf : directForm? op invert rd rn operand = .ok (some f)) :
    f.Within A (decide (op = .ands)) := by
  rcases cases_of_directForm? hf with ⟨bitmask, rfl⟩ | ⟨rm, shift, amount, hrm, rfl⟩
  · exact Form.within_of_written (by simp [Form.registers, hrd, hrn]) rfl h id
  · exact within_logicalShifted hrd hrn (hoperand rm hrm) h shift amount

end Logical

namespace Emit

variable {s : Emitter} {rd rn : Register} {operand : Operand}

/-- The copy of the stack pointer is a register of the pool. -/
theorem frames_outOfStack {A : Register → Prop} {flags : Bool} (hrn : rn.IsBuilt)
    (hpool : ∀ r, s.pool.contains r → A r) :
    (outOfStack rn).Frames s A flags fun r p =>
      r.IsBuilt ∧ ∀ q, p.contains q → s.pool.contains q := by
  rw [outOfStack]
  split
  · refine .acquire_bind fun copy hcopy _ hmem _ => ?_
    have hoperand : ∀ r ∈ (Operand.register rn).register?, r.IsBuilt := by
      rintro r ⟨⟩
      exact hrn
    refine .bind ((frames_mov hcopy hoperand).of_scratch hmem hpool id) fun _ gs p hp => ?_
    refine .pure ⟨hcopy, fun q hq => ?_⟩
    exact RegisterSet.contains_of_contains_erase (hp ▸ hq)
  · exact .pure ⟨hrn, fun q hq => hq⟩

/-- A combination through scratch registers writes its destination and registers of the pool, and
gives these back. -/
theorem frames_logicalThroughScratch (hrd : rd.IsBuilt) (hrn : rn.IsBuilt)
    (hoperand : ∀ r ∈ operand.register?, r.IsBuilt) (op : LogicalOp) (invert : Bool) :
    (logicalThroughScratch op invert rd rn operand).Frames s
      (MayWrite [rd] (rn :: operand.register?.toList) s.pool) (decide (op = .ands))
      fun _ p => p = s.pool := by
  have destination : MayWrite [rd] (rn :: operand.register?.toList) s.pool rd := .of_mem (.head _)
  refine .scopeFor fun pool hpool => ?_
  refine .acquire_bind fun temp htemp _ hmem _ => ?_
  refine .bind ((frames_mov htemp hoperand).of_scratch hmem hpool id) fun _ gs p hp => ?_
  have rest : ∀ r, p.contains r → pool.contains r := by
    intro r hr
    rw [hp] at hr
    exact RegisterSet.contains_of_contains_erase hr
  refine .bind (frames_outOfStack hrn fun r hr => hpool r (rest r hr)) ?_
  rintro copy hs q ⟨hcopy, hq⟩
  split
  · refine .bind (.terminal (Logical.within_logicalShifted htemp hcopy htemp (hpool temp hmem) _ _))
      fun _ ks p' hp' => ?_
    obtain rfl : p' = q := hp'
    have hoperand : ∀ r ∈ (Operand.register temp).register?, r.IsBuilt := by
      rintro r ⟨⟩
      exact htemp
    refine .mono (frames_mov hrd hoperand) (fun r hr h => ?_) id fun _ _ _ => trivial
    exact h.mono (fun d hd _ => .of_mem hd) (fun r hr _ => hpool r (rest r (hq r hr))) hr
  · exact .forget (.terminal (Logical.within_logicalShifted hrd hcopy htemp destination _ _))

/-- A logical operation writes its destination. -/
theorem frames_logical (hrd : rd.IsBuilt) (hrn : rn.IsBuilt)
    (hoperand : ∀ r ∈ operand.register?, r.IsBuilt) (op : LogicalOp) (invert : Bool) :
    (logical op invert rd rn operand).Frames s
      (MayWrite [rd] (rn :: operand.register?.toList) s.pool) (decide (op = .ands))
      fun _ p => p = s.pool := by
  refine .require_bind fun _ => .require_bind fun _ => .lift_bind fun direct hdirect => ?_
  cases direct with
  | none => exact frames_logicalThroughScratch hrd hrn hoperand op invert
  | some f =>
    exact .terminal (Logical.within_of_directForm? hrd hrn (.of_mem (.head _)) hoperand hdirect)

end Emit

/-! ## Loads and stores -/

/-- The registers of an addressing mode. -/
def MemOperand.registers : MemOperand → List Register
  | .offset base _ | .preIndex base _ | .postIndex base _ => [base]
  | .registerOffset base index _ _ => [base, index]

namespace LoadStoreOp

/-- The transfer register, if it is written. -/
def loaded (op : LoadStoreOp) (rt : Register) : List Register :=
  if op.isLoad then [rt] else []

/-- The transfer register, if it is read. -/
def stored (op : LoadStoreOp) (rt : Register) : List Register :=
  if op.isLoad then [] else [rt]

end LoadStoreOp

/-- What a load or store writes: the register that it loads and the base that it changes. -/
def MemOperand.destinations (mem : MemOperand) (op : LoadStoreOp) (rt : Register) : List Register :=
  op.loaded rt ++ if mem.writesBack then [mem.base] else []

/-- What a load or store reads. -/
def MemOperand.sources (mem : MemOperand) (op : LoadStoreOp) (rt : Register) : List Register :=
  op.stored rt ++ mem.registers

/-- What is read is the register that is stored or one of the operand. -/
theorem MemOperand.eq_or_mem_of_mem_sources {mem : MemOperand} {op : LoadStoreOp} {rt q : Register}
    (h : q ∈ mem.sources op rt) : q = rt ∨ q ∈ mem.registers := by
  rcases List.mem_append.1 h with h | h
  · rw [LoadStoreOp.stored] at h
    split at h
    · cases h
    · exact .inl (List.mem_singleton.1 h)
  · exact .inr h

namespace LoadStore

variable {A : Register → Prop} {flags : Bool} {op : LoadStoreOp} {rt base index : Register}

/-- An unsigned offset leaves the base. -/
theorem within_loadStoreUnsigned (hrt : rt.IsBuilt) (hbase : base.IsBuilt)
    (h : ∀ r ∈ op.loaded rt, A r) (imm12 : Nat) :
    (Form.loadStoreUnsigned op rt base imm12).Within A flags where
  isBuilt := by simp [Form.registers, hrt, hbase]
  allowed r hr _ := h r hr
  flags h := absurd h Bool.false_ne_true

/-- A 9-bit offset changes the base unless it is unscaled. -/
theorem within_loadStoreIndexed (hrt : rt.IsBuilt) (hbase : base.IsBuilt)
    (h : ∀ r ∈ op.loaded rt, A r) (offset : Int) {mode : IndexMode}
    (hmode : mode ≠ .unscaled → A base) :
    (Form.loadStoreIndexed op rt base offset mode).Within A flags where
  isBuilt := by simp [Form.registers, hrt, hbase]
  allowed r hr _ := by
    rcases List.mem_append.1 hr with hr | hr
    · exact h r hr
    · split at hr
      · cases hr
      · next hne => exact List.mem_singleton.1 hr ▸ hmode hne
  flags h := absurd h Bool.false_ne_true

/-- So does the form that is chosen for an offset. -/
theorem within_of_offsetForm? (hrt : rt.IsBuilt) (hbase : base.IsBuilt)
    (h : ∀ r ∈ op.loaded rt, A r) {offset : Int} {f : Form}
    (hf : offsetForm? op rt base offset = .ok (some f)) : f.Within A flags := by
  rcases cases_of_offsetForm? hf with rfl | ⟨-, rfl⟩
  · exact within_loadStoreUnsigned hrt hbase h _
  · exact within_loadStoreIndexed hrt hbase h offset (absurd rfl)

/-- The form that updates its base writes the base, too. -/
theorem within_of_indexedForm? (hrt : rt.IsBuilt) (hbase : base.IsBuilt)
    (h : ∀ r ∈ op.loaded rt, A r) (hA : A base) {offset : Int} {mode : IndexMode} {f : Form}
    (hf : indexedForm? op rt base offset mode = some f) : f.Within A flags := by
  obtain ⟨-, rfl⟩ := eq_of_indexedForm? hf
  exact within_loadStoreIndexed hrt hbase h offset fun _ => hA

/-- The form for a register offset leaves the base. -/
theorem within_of_registerForm? (hrt : rt.IsBuilt) (hbase : base.IsBuilt) (hindex : index.IsBuilt)
    (h : ∀ r ∈ op.loaded rt, A r) {extend : Extend} {amount : Nat} {f : Form}
    (hf : registerForm? op rt base index extend amount = some f) : f.Within A flags := by
  obtain ⟨-, -, rfl⟩ := eq_of_registerForm? hf
  have hindex' := hindex.withView (if extend = .uxtw ∨ extend = .sxtw then .w else .x)
  exact {
    isBuilt := by simp [Form.registers, hrt, hbase, hindex']
    allowed r hr _ := h r hr
    flags h := absurd h Bool.false_ne_true }

/-- A register offset as an operand is built if the index is. -/
theorem isBuilt_indexOperand (hindex : index.IsBuilt) (extend : Extend) (amount : Nat) :
    ∀ r ∈ (indexOperand index extend amount).register?, r.IsBuilt := by
  intro r hr
  rw [indexOperand] at hr
  split at hr
  · exact Option.some.inj hr ▸ hindex.withView .x
  · exact Option.some.inj hr ▸ hindex

end LoadStore

namespace Emit

variable {s : Emitter} {flags : Bool} {op : LoadStoreOp} {rt base : Register}

/-- The address is computed in a scratch register that is none of the reserved ones. -/
theorem frames_accessThroughScratch {A : Register → Prop} (hrt : rt.IsBuilt) (hbase : base.IsBuilt)
    (h : ∀ r ∈ op.loaded rt, A r) {reserved : List Register} {operand : Operand}
    (hoperand : ∀ r ∈ operand.register?, r.IsBuilt)
    (hpool : ∀ r, (s.pool.eraseMany reserved).contains r → A r) :
    (accessThroughScratch op rt base reserved operand).Frames s A flags fun _ p => p = s.pool := by
  refine .scope (.reserve_bind (.acquire_bind fun temp htemp _ hmem _ => ?_))
  refine .bind ((frames_addSub htemp hbase hoperand .add).of_scratch hmem hpool
    (absurd · Bool.false_ne_true)) fun _ gs p _ => ?_
  exact .forget (.terminal (LoadStore.within_loadStoreUnsigned hrt htemp h 0))

/-- The base is changed in a scope in which the transfer register is withdrawn. -/
theorem frames_updateBase {destinations sources : List Register} (hbase : base.IsBuilt)
    (hdestination : base ∈ destinations) (hsources : ∀ q ∈ sources, q = rt ∨ q = base)
    (offset : Int) :
    (updateBase rt base offset).Frames s (MayWrite destinations sources s.pool) flags
      fun _ p => p = s.pool := by
  have hoperand : ∀ r ∈ (Operand.immediate offset).register?, r.IsBuilt :=
    fun r hr => absurd hr (Option.not_mem_none r)
  refine .scope (.reserve_bind ((frames_addSub hbase hbase hoperand .add).mono (fun r hr h => ?_)
    (fun h => absurd h Bool.false_ne_true) fun _ _ _ => trivial))
  refine h.mono (fun d hd _ => ?_) (fun r hr hne => .inr ?_) hr
  · exact List.mem_singleton.1 hd ▸ .of_mem hdestination
  · obtain ⟨member, other⟩ := RegisterSet.contains_eraseMany_iff.1 hr
    refine ⟨member, fun q hq => ?_⟩
    rcases hsources q hq with rfl | rfl
    · exact other q (.head _)
    · exact hne q (.head _)

/-- A load or store writes what it loads and the base that it changes. -/
theorem frames_loadStore (hrt : rt.IsBuilt) {mem : MemOperand}
    (hmem : ∀ r ∈ mem.registers, r.IsBuilt) :
    (loadStore op rt mem).Frames s (MayWrite (mem.destinations op rt) (mem.sources op rt) s.pool)
      flags fun _ p => p = s.pool := by
  have loaded : ∀ r ∈ op.loaded rt,
      MayWrite (mem.destinations op rt) (mem.sources op rt) s.pool r :=
    fun r hr => .of_mem (List.mem_append_left _ hr)
  refine .require_bind fun _ => .require_bind fun _ => ?_
  cases mem with
  | offset base offset =>
    have hbase := hmem base (.head _)
    refine .lift_bind fun direct hdirect => ?_
    cases direct with
    | some f => exact .terminal (LoadStore.within_of_offsetForm? hrt hbase loaded hdirect)
    | none =>
      refine frames_accessThroughScratch hrt hbase loaded
        (fun r hr => absurd hr (Option.not_mem_none r)) fun r =>
        .of_contains_eraseMany fun q hq => ?_
      rcases MemOperand.eq_or_mem_of_mem_sources hq with rfl | hq
      · exact .tail _ (.head _)
      · exact List.mem_singleton.1 hq ▸ .head _
  | preIndex base offset =>
    have hbase := hmem base (.head _)
    have changed : base ∈ (MemOperand.preIndex base offset).destinations op rt :=
      List.mem_append_right _ (.head _)
    have access : (Form.loadStoreUnsigned op rt base 0).Within _ flags :=
      LoadStore.within_loadStoreUnsigned hrt hbase loaded 0
    dsimp only
    split
    · next f hf =>
      exact .terminal (LoadStore.within_of_indexedForm? hrt hbase loaded (.of_mem changed) hf)
    · refine .bind (frames_updateBase hbase changed (fun q hq => ?_) offset) fun _ gs p hp => ?_
      · exact (MemOperand.eq_or_mem_of_mem_sources hq).imp_right List.mem_singleton.1
      · obtain rfl : p = s.pool := hp
        exact .terminal access
  | postIndex base offset =>
    have hbase := hmem base (.head _)
    have changed : base ∈ (MemOperand.postIndex base offset).destinations op rt :=
      List.mem_append_right _ (.head _)
    have access : (Form.loadStoreUnsigned op rt base 0).Within _ flags :=
      LoadStore.within_loadStoreUnsigned hrt hbase loaded 0
    dsimp only
    split
    · next f hf =>
      exact .terminal (LoadStore.within_of_indexedForm? hrt hbase loaded (.of_mem changed) hf)
    · refine .bind (.terminal access) fun _ gs p hp => ?_
      obtain rfl : p = s.pool := hp
      refine frames_updateBase hbase changed (fun q hq => ?_) offset
      exact (MemOperand.eq_or_mem_of_mem_sources hq).imp_right List.mem_singleton.1
  | registerOffset base index extend amount =>
    have hbase := hmem base (.head _)
    have hindex := hmem index (.tail _ (.head _))
    dsimp only
    split
    · next f hf => exact .terminal (LoadStore.within_of_registerForm? hrt hbase hindex loaded hf)
    · refine frames_accessThroughScratch hrt hbase loaded ?_ fun r =>
        .of_contains_eraseMany fun q hq => ?_
      · exact LoadStore.isBuilt_indexOperand hindex extend amount
      · rcases MemOperand.eq_or_mem_of_mem_sources hq with rfl | hq
        · exact .tail _ (.tail _ (.head _))
        · exact List.mem_append_left [rt] hq

end Emit

/-! ## Branches and capabilities -/

namespace Emit

variable {s : Emitter} {flags : Bool}

/-- A branch writes the link register if it is a call. -/
theorem frames_branch {rn : Register} (hrn : rn.IsBuilt) (op : BranchOp) {A : Register → Prop}
    (h : op = .blr → A (.link .x)) :
    (branch op rn).Frames s A flags fun _ p => p = s.pool := by
  have within : (Form.branchRegister op rn).Within A flags := {
    isBuilt := List.forall_mem_singleton.2 hrn
    allowed r hr _ := by
      rw [Form.written] at hr
      split at hr
      · next hop => exact List.mem_singleton.1 hr ▸ h hop
      · cases hr
    flags h := absurd h Bool.false_ne_true }
  refine .get_bind ?_
  cases s.isa with
  | a64 => exact .require_bind fun _ => .terminal within
  | c64 => exact .require_bind fun _ => .terminal within

/-- The sum is computed with the offset in a scratch register that is neither capability. -/
theorem frames_capabilityAdd {cd cn : Register} (hcd : cd.IsBuilt) (hcn : cn.IsBuilt)
    (offset : Int) :
    (capabilityAdd cd cn offset).Frames s (MayWrite [cd] [cn] s.pool) flags
      fun _ p => p = s.pool := by
  have destination : MayWrite [cd] [cn] s.pool cd := .of_mem (.head _)
  rw [capabilityAdd]
  split
  · exact .terminal (Form.within_of_keeps_flags (by simp [Form.registers, hcd, hcn]) rfl
      destination rfl)
  · refine .scope (.reserve_bind (.acquire_bind fun temp htemp _ hmem _ => ?_))
    refine .bind ((frames_movImmediate htemp offset).of_scratch hmem (fun r => ?_) id)
      fun _ gs p _ => ?_
    · exact .of_contains_eraseMany fun q hq => .tail _ hq
    · refine .forget (.terminal (Form.within_of_keeps_flags ?_ rfl destination rfl))
      simp [Form.registers, hcd, hcn, htemp]

/-- A branch through memory writes the link register if it links. -/
theorem frames_branchCapability {mem : MemOperand} (hmem : ∀ r ∈ mem.registers, r.IsBuilt)
    (link : Bool) :
    (branchCapability mem link).Frames s
      (MayWrite (if link then [.link .c] else []) mem.registers s.pool) flags
      fun _ p => p = s.pool := by
  have within : ∀ cn offset, cn.IsBuilt → (Form.capabilityBranch cn offset link).Within
      (MayWrite (if link then [.link .c] else []) mem.registers s.pool) flags :=
    fun cn offset hcn => {
      isBuilt := List.forall_mem_singleton.2 hcn
      allowed r hr _ := .of_mem hr
      flags h := absurd h Bool.false_ne_true }
  refine .get_bind (.require_bind fun _ => ?_)
  cases mem with
  | offset base offset =>
    have hbase := hmem base (.head _)
    refine .require_bind fun _ => ?_
    split
    · exact .terminal (within base offset hbase)
    · refine .scope (.reserve_bind (.acquire_bind fun temp htemp _ hmem _ => ?_))
      refine .bind ((frames_capabilityAdd htemp hbase offset).of_scratch hmem (fun r => ?_) id)
        fun _ gs p _ => ?_
      · exact .of_contains_eraseMany fun q hq => hq
      · exact .forget (.terminal (within temp 0 htemp))
  | _ => exact .throw

end Emit

/-! ## Operations -/

namespace Operation

/-- The registers that an operation is given. -/
def registers : Operation → List Register
  | .addSub _ rd rn operand | .logical _ _ rd rn operand => rd :: rn :: operand.register?.toList
  | .cmp rn operand | .cmn rn operand | .tst rn operand => rn :: operand.register?.toList
  | .neg rd operand | .mov rd operand => rd :: operand.register?.toList
  | .loadStore _ rt mem => rt :: mem.registers
  | .branch _ rn => [rn]
  | .ret => []
  | .branchCapability mem _ => mem.registers
  | .capabilityAdd cd cn _ => [cd, cn]

/-- The registers that an operation is there to write: what it computes, loads or changes, and the
link register of a call. -/
def destinations : Operation → List Register
  | .addSub _ rd _ _ | .neg rd _ | .logical _ _ rd _ _ | .mov rd _ => [rd]
  | .cmp _ _ | .cmn _ _ | .tst _ _ | .ret => []
  | .loadStore op rt mem => mem.destinations op rt
  | .branch op _ => if op = .blr then [.link .x] else []
  | .branchCapability _ link => if link then [.link .c] else []
  | .capabilityAdd cd _ _ => [cd]

/-- The registers that an operation reads: its operands, the base and the index of an address, the
register that it stores and the register that it branches to. -/
def sources : Operation → List Register
  | .addSub _ _ rn operand | .logical _ _ _ rn operand => rn :: operand.register?.toList
  | .cmp rn operand | .cmn rn operand | .tst rn operand => rn :: operand.register?.toList
  | .neg _ operand | .mov _ operand => operand.register?.toList
  | .loadStore op rt mem => mem.sources op rt
  | .branch _ rn => [rn]
  | .ret => [.link .x]
  | .branchCapability mem _ => mem.registers
  | .capabilityAdd _ cn _ => [cn]

/-- Whether an operation is there to write the flags. -/
def setsFlags : Operation → Bool
  | .addSub op _ _ _ => op.setsFlags
  | .logical op _ _ _ _ => op = .ands
  | .cmp _ _ | .cmn _ _ | .tst _ _ => true
  | _ => false

/-- A comparison writes the zero register, which is no destination. -/
theorem mayWrite_of_zero {view : RegisterView} {sources : List Register} {pool : RegisterSet}
    {r : Register} (hr : r.isZero = false) (h : MayWrite [.zero view] sources pool r) :
    MayWrite [] sources pool r := by
  refine h.mono (fun d hd hzero => ?_) (fun q hq hne => .inr ⟨hq, hne⟩) hr
  obtain rfl := List.mem_singleton.1 hd
  cases hzero

/-- **An operation writes only what it may write**, and the pool is what it was. -/
theorem frames_emit {op : Operation} {s : Emitter} (hbuilt : ∀ r ∈ op.registers, r.IsBuilt) :
    op.emit.Frames s (MayWrite op.destinations op.sources s.pool) op.setsFlags
      fun _ p => p = s.pool := by
  have operand : ∀ {o : Operand}, (∀ r ∈ o.register?.toList, r.IsBuilt) →
      ∀ r ∈ o.register?, r.IsBuilt := fun h r hr => h r (Option.mem_toList.2 hr)
  cases op <;> simp only [registers, List.forall_mem_cons] at hbuilt
  case addSub op rd rn o => exact Emit.frames_addSub hbuilt.1 hbuilt.2.1 (operand hbuilt.2.2) op
  case cmp rn o =>
    exact (Emit.frames_addSub (Register.isBuilt_zero _) hbuilt.1 (operand hbuilt.2) .subs).mono
      (fun r => mayWrite_of_zero) id fun _ _ h => h
  case cmn rn o =>
    exact (Emit.frames_addSub (Register.isBuilt_zero _) hbuilt.1 (operand hbuilt.2) .adds).mono
      (fun r => mayWrite_of_zero) id fun _ _ h => h
  case neg rd o =>
    refine (Emit.frames_addSub hbuilt.1 (Register.isBuilt_zero _) (operand hbuilt.2) .sub).mono
      (fun r hr h => ?_) id fun _ _ h => h
    refine h.mono (fun d hd _ => .of_mem hd) (fun q hq hne => .inr ⟨hq, fun q' hq' => ?_⟩) hr
    exact hne q' (.tail _ hq')
  case logical op invert rd rn o =>
    exact Emit.frames_logical hbuilt.1 hbuilt.2.1 (operand hbuilt.2.2) op invert
  case tst rn o =>
    exact (Emit.frames_logical (Register.isBuilt_zero _) hbuilt.1 (operand hbuilt.2) .ands
      false).mono (fun r => mayWrite_of_zero) id fun _ _ h => h
  case mov rd o => exact Emit.frames_mov hbuilt.1 (operand hbuilt.2)
  case loadStore op rt mem => exact Emit.frames_loadStore hbuilt.1 hbuilt.2
  case branch op rn =>
    refine Emit.frames_branch hbuilt.1 op fun hop => .of_mem ?_
    rw [destinations, if_pos hop]
    exact .head _
  case ret =>
    have hret : BranchOp.ret = .blr → MayWrite [] [.link .x] s.pool (.link .x) :=
      fun h => absurd h (by decide)
    refine .get_bind ?_
    cases s.isa with
    | a64 => exact Emit.frames_branch (Register.isBuilt_link _) .ret hret
    | c64 => exact Emit.frames_branch (Register.isBuilt_link _) .ret hret
  case branchCapability mem link => exact Emit.frames_branchCapability hbuilt link
  case capabilityAdd cd cn offset => exact Emit.frames_capabilityAdd hbuilt.1 hbuilt.2.1 offset

/-- **Operations clobber nothing else.** Whenever the emission of an operation returns, every word
that it appends, decoded in either instruction set and at any position, writes only registers that
are destinations of the operation or members of the pool at its start that the operation does not
read, and writes the flags only if the operation sets flags.

**Proof sketch.** The operation appends words of forms that write only what may be written
(`AArch64.Operation.frames_emit`), and the word of a form writes what the form writes
(`AArch64.Form.writes_word`). -/
theorem effects_of_emit {op : Operation} {s s' : Emitter} (hbuilt : ∀ r ∈ op.registers, r.IsBuilt)
    (h : op.emit.apply s = (.ok (), s')) :
    ∃ ws : List Word, s'.code.words = s.code.words ++ ws.toArray ∧
      ∀ w ∈ ws, ∀ isa position,
        Instruction.WritesWithin ⟨w, EncodingIndex.graph.classify w isa, isa, position⟩
          (MayWrite op.destinations op.sources s.pool) op.setsFlags := by
  obtain ⟨fs, p, hcheck, rfl, hwithin, -⟩ := (frames_emit hbuilt).of_ok h
  refine ⟨fs.map Form.word, rfl, fun w hw isa position => ?_⟩
  obtain ⟨f, hf, rfl⟩ := List.mem_map.1 hw
  obtain ⟨e, heffect, hregisters, hflags⟩ :=
    Form.writes_word (hcheck f hf) (hwithin f hf).isBuilt isa position
  refine ⟨e, heffect, fun r hr => ?_, fun he => (hwithin f hf).flags (hflags he)⟩
  obtain ⟨d, hd, hzero, hcode⟩ := hregisters r hr
  exact ((hwithin f hf).allowed d hd hzero).congr hcode

/-- A load from a base in the pool, at an offset that no form holds. -/
def farLoad : Operation :=
  .loadStore .ldr ⟨0, .x⟩ (.offset ⟨16, .x⟩ 0x12345678)

/-- The address is computed in register 17, and the base is not written. -/
theorem effects_of_emit_farLoad :
    (farLoad.emit.apply (.new .a64)).1 = .ok () ∧
      ∃ ws : List Word, (farLoad.emit.apply (.new .a64)).2.code.words =
          (Emitter.new .a64).code.words ++ ws.toArray ∧
        ∀ w ∈ ws, ∀ isa position,
          Instruction.WritesWithin ⟨w, EncodingIndex.graph.classify w isa, isa, position⟩
            (MayWrite [⟨0, .x⟩] [⟨16, .x⟩] .callClobbered) false := by
  have returns : (farLoad.emit.apply (.new .a64)).1 = .ok () := rfl
  have built : ∀ r ∈ farLoad.registers, r.IsBuilt := by
    intro r hr
    rcases List.mem_pair.1 hr with rfl | rfl
    · exact .inl ⟨0, rfl⟩
    · exact .inl ⟨16, rfl⟩
  exact ⟨returns, effects_of_emit built (Prod.ext returns rfl)⟩

end Operation

end AArch64
