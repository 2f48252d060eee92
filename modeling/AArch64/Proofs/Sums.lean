import AArch64.Proofs.Carries
import AArch64.Proofs.Moves

/-!
# What additions and subtractions do

An addition or subtraction leaves the sum or the difference of its sources in its destination, and
sets the flags to those of the sum or the difference if it sets flags. This holds of all of its
emissions: with the immediate, with the negative of the immediate and the dual operation, with an
extended register where the stack pointer is involved, and through a scratch register.

## Main definitions

* `AArch64.Operation.sum?` — the addition or subtraction that an operation is.

## Main results

* `AArch64.AddSub.execute_of_directForm?` — the forms that take the operand directly.
* `AArch64.Emit.runs_addSub` — the words of an addition or subtraction, of whatever emission.
* `AArch64.Operation.sum_emit` — what additions, subtractions, comparisons and negations do.
-/

set_option autoImplicit false

namespace AArch64

namespace Immediate

/-- The fields of an immediate stand for it. -/
theorem eq_of_addSub? {imm : Int} {imm12 : Nat} {shifted : Bool}
    (h : addSub? imm = some (imm12, shifted)) :
    imm = (imm12 * if shifted then 4096 else 1 : Nat) ∧ imm < 2 ^ 24 := by
  rw [addSub?] at h
  split at h
  · next small =>
    cases h
    rw [if_neg Bool.false_ne_true]
    omega
  · split at h
    · next large =>
      cases h
      rw [if_pos rfl]
      omega
    · cases h

/-- A small negative number is not zero at a width, and has a negative there. -/
theorem ofInt_ne_of_neg {w : Nat} {imm : Int} (hw : w = 32 ∨ w = 64) (hneg : imm < 0)
    (hsmall : -2 ^ 24 < imm) :
    BitVec.ofInt w imm ≠ 0#w ∧ BitVec.ofInt w imm ≠ BitVec.intMin w := by
  constructor
  · intro h
    have bits := congrArg BitVec.toNat h
    rcases hw with rfl | rfl <;> simp [BitVec.toNat_ofInt] at bits <;> omega
  · intro h
    have bits := congrArg BitVec.toNat h
    rcases hw with rfl | rfl <;> simp [BitVec.toNat_ofInt, BitVec.toNat_intMin] at bits <;> omega

end Immediate

/-! ## Direct forms -/

/-- A machine after a sum or difference was written, with its flags if the operation sets flags. -/
def Machine.afterSum (m : Machine) (op : AddSubOp) (rd : Register) (x y : BitVec rd.width) :
    Machine :=
  m.writeResult op.setsFlags rd (op.result x y)

namespace AddSub

variable {op : AddSubOp} {rd rn rm : Register} {f : Form} (m : Machine)

/-- The result of an operation is the sum that it stands for. -/
theorem writeResult_apply (x y : BitVec rd.width) :
    m.writeResult op.setsFlags rd (op.apply x y) = m.afterSum op rd x y := by
  rw [AddSubOp.apply_eq_result rd.width_pos, Machine.afterSum]

/-- An addition of an immediate adds it, or 4096 times it if it is shifted. -/
theorem execute_addSubImmediate (imm12 : Nat) (shifted : Bool) :
    (Form.addSubImmediate op rd rn imm12 shifted).execute m =
      some (m.afterSum op rd (m.readAt rd.width rn)
        (BitVec.ofNat rd.width (imm12 * if shifted then 4096 else 1))) :=
  congrArg some (writeResult_apply m _ _)

/-- The dual operation with the negative leaves the same. -/
theorem execute_dual {imm : Int} (hneg : imm < 0) {imm12 : Nat} {shifted : Bool}
    (h : Immediate.addSub? (-imm) = some (imm12, shifted)) :
    (Form.addSubImmediate op.dual rd rn imm12 shifted).execute m =
      some (m.afterSum op rd (m.readAt rd.width rn) (BitVec.ofInt rd.width imm)) := by
  obtain ⟨negative, small⟩ := Immediate.eq_of_addSub? h
  obtain ⟨hzero, hmin⟩ := Immediate.ofInt_ne_of_neg rd.width_eq_or hneg (by omega)
  rw [execute_addSubImmediate, ← BitVec.ofInt_natCast, ← negative, BitVec.ofInt_neg,
    Machine.afterSum, AddSubOp.result_dual hzero hmin, op.setsFlags_dual, Machine.afterSum]

/-- The immediate forms add or subtract the immediate modulo the width. -/
theorem execute_of_immediateForm? {imm : Int} (h : immediateForm? op rd rn imm = .ok (some f)) :
    f.execute m = some (m.afterSum op rd (m.readAt rd.width rn) (BitVec.ofInt rd.width imm)) := by
  rw [immediateForm?] at h
  split at h
  case h_2 => cases h
  next imm' himm =>
  rw [← Immediate.ofInt_of_atWidth? rd.width_eq_or himm]
  split at h
  · cases h
  split at h
  · next imm12 shifted fits =>
    obtain ⟨⟩ := h
    rw [execute_addSubImmediate, ← BitVec.ofInt_natCast, ← (Immediate.eq_of_addSub? fits).1]
  next misfits =>
  split at h
  · cases h
  next hne =>
  rw [Immediate.negate_eq (Immediate.ne_mostNegative himm hne)] at h
  obtain ⟨negative, hnegative, h⟩ := exists_of_bind_eq_ok h
  obtain rfl := Except.ok.inj hnegative
  split at h
  · next imm12 shifted fits =>
    obtain ⟨⟩ := h
    have nonpositive : imm' ≤ 0 := by
      have := Int.natCast_nonneg (imm12 * if shifted then 4096 else 1)
      have := (Immediate.eq_of_addSub? fits).1
      omega
    -- zero is an immediate
    have nonzero : imm' ≠ 0 := by
      rintro rfl
      exact misfits 0 false rfl
    exact execute_dual m (by omega) fits
  · cases h

/-- The extended form with the stack pointer reads the register at the width of the operation. -/
theorem apply_uxt (rd : Register) (x : BitVec 64) :
    (if rd.is64 then Extend.uxtx else .uxtw).apply rd.width x = x.setWidth rd.width := by
  obtain ⟨code, view⟩ := rd
  cases view with
  | w => exact BitVec.setWidth_eq (x.setWidth 32)
  | x => exact BitVec.setWidth_eq (x.setWidth 64)
  | c => exact BitVec.setWidth_eq (x.setWidth 64)

/-- The form that is chosen for a shifted register adds the shifted register. -/
theorem execute_of_shiftedForm? {shift : Shift} {amount : Nat}
    (h : shiftedForm? op rd rn rm shift amount = some f) :
    f.execute m = some (m.afterSum op rd (m.readAt rd.width rn)
      (shift.apply (m.readAt rd.width rm) amount)) := by
  rcases cases_of_shiftedForm? h with rfl | ⟨rfl, rfl⟩
  · exact congrArg some (writeResult_apply m _ _)
  · refine congrArg some ((writeResult_apply m _ _).trans ?_)
    rw [apply_uxt]
    rfl

/-- The register forms add or subtract the value of the operand. -/
theorem execute_of_registerForm? {operand : Operand}
    (h : registerForm? op rd rn operand = some f) :
    f.execute m = some (m.afterSum op rd (m.readAt rd.width rn) (operand.value m rd.width)) := by
  cases operand with
  | immediate imm => cases h
  | register rm =>
    rw [execute_of_shiftedForm? m h, Shift.apply, BitVec.shiftLeft_zero, Operand.value]
  | shifted rm shift amount => exact execute_of_shiftedForm? m h
  | extended rm extend amount =>
    rw [registerForm?] at h
    split at h
    · obtain rfl := Option.some.inj h
      exact congrArg some (writeResult_apply m _ _)
    · cases h

/-- **The forms that take an operand directly** add or subtract its value. -/
theorem execute_of_directForm? {operand : Operand}
    (h : directForm? op rd rn operand = .ok (some f)) :
    f.execute m = some (m.afterSum op rd (m.readAt rd.width rn) (operand.value m rd.width)) := by
  cases operand with
  | immediate imm => exact execute_of_immediateForm? m h
  | _ => exact execute_of_registerForm? m (Except.ok.inj h)

end AddSub

/-! ## Emissions -/

namespace Emit

variable {s : Emitter} {m : Machine} {op : AddSubOp} {rd rn : Register} {operand : Operand}

/-- An addition or subtraction works on the sources as they were, from a machine in which at most
registers that may be written have changed. -/
def IsSum (m : Machine) (changed : Register → Prop) (op : AddSubOp) (rd rn : Register)
    (operand : Operand) (m' : Machine) : Prop :=
  ∃ m₁, m.AgreesBut changed m₁ ∧
    m' = m₁.afterSum op rd (m.readAt rd.width rn) (operand.value m rd.width)

section IsSum

variable {changed : Register → Prop} {m' : Machine}

/-- An addition or subtraction leaves its sum or difference. -/
theorem IsSum.leaves (h : IsSum m changed op rd rn operand m') :
    m.Leaves changed op.setsFlags rd
      (op.result (m.readAt rd.width rn) (operand.value m rd.width)) m' := h

/-- An operation that does not set flags changes registers only. -/
theorem IsSum.agreesBut_of_setsFlags (h : IsSum m changed op rd rn operand m')
    (hop : op.setsFlags = false) (hrd : ∀ q : Register, q.code = rd.code → changed q) :
    m.AgreesBut changed m' := by
  have leaves := h.leaves
  rw [hop] at leaves
  exact leaves.agreesBut_of_setsFlags hrd

/-- A sum of 64 bits. -/
theorem IsSum.read_sum (h : IsSum m changed .add rd rn operand m') (hrd : rd.IsBuilt)
    (hzero : rd.isZero = false) (hwidth : rd.width = 64) :
    m'.read rd = m.read rn + operand.value m 64 := by
  have sum := h.leaves.read_destination hrd hzero
  rw [hwidth] at sum
  refine sum.trans ?_
  rw [BitVec.setWidth_eq, Machine.readAt, BitVec.setWidth_eq]
  rfl

end IsSum

/-- The operand is moved to a scratch register, which is no source. -/
theorem runs_addSubThroughScratch (hrd : rd.IsBuilt) (hrn : rn.IsBuilt)
    (hoperand : ∀ r ∈ operand.register?, r.IsBuilt) :
    (addSubThroughScratch op rd rn operand).Runs s m fun _ p m' => p = s.pool ∧
      IsSum m (MayWrite [rd] (rn :: operand.register?.toList) s.pool) op rd rn operand m' := by
  refine .scopeFor fun pool hpool => .acquire_bind fun temp htemp hgeneral hmem hview => ?_
  obtain ⟨written, unread⟩ := hpool temp hmem
  have zero := temp.isZero_of_isGeneral hgeneral
  have width : temp.width = rd.width := by rw [Register.width, Register.is64, hview]; rfl
  have moved : (m.writeAt temp (operand.value m temp.width)).readAt rd.width temp =
      operand.value m rd.width := by
    rw [width]
    exact Machine.readAt_writeAt_self htemp zero rd.width_le _
  have kept : (m.writeAt temp (operand.value m temp.width)).readAt rd.width rn =
      m.readAt rd.width rn :=
    Machine.readAt_writeAt_of_ne (unread rn (.head _)) _
  refine .bind (runs_mov htemp (temp.isStack_of_isGeneral hgeneral) hoperand) ?_
  rintro _ fs p _ ⟨-, rfl⟩
  split
  · next f hf =>
    have within : f.Within (Eq rd) op.setsFlags := by
      refine AddSub.within_of_registerForm? hrd hrn rfl ?_ hf
      rintro r ⟨⟩
      exact htemp
    refine .terminal within.isBuilt fun _ => ⟨_, AddSub.execute_of_registerForm? _ hf, rfl, ?_⟩
    refine ⟨m.writeAt temp (operand.value m temp.width),
      .write (fun q code => written.congr code.symm) _, ?_⟩
    rw [kept, Operand.value, moved]
  · exact .throw

/-- **An addition or subtraction computes the sum or the difference of its sources**, with the
immediate modulo the width, and writes it to its destination. Before that, registers of the pool
that are no sources may change.

**Proof sketch.** The forms that take the operand directly do what is asked for
(`AArch64.AddSub.execute_of_directForm?`). Otherwise the operand is moved to a register of the pool
(`AArch64.Emit.runs_mov`). That may be the destination, but no source, so the sources are read as
they were. -/
theorem runs_addSub (hrd : rd.IsBuilt) (hrn : rn.IsBuilt)
    (hoperand : ∀ r ∈ operand.register?, r.IsBuilt) :
    (addSub op rd rn operand).Runs s m fun _ p m' => p = s.pool ∧
      IsSum m (MayWrite [rd] (rn :: operand.register?.toList) s.pool) op rd rn operand m' := by
  refine .require_bind fun _ => .require_bind fun _ => .require_bind fun _ =>
    .lift_bind fun direct hdirect => ?_
  cases direct with
  | none => exact runs_addSubThroughScratch hrd hrn hoperand
  | some f =>
    have within : f.Within (Eq rd) op.setsFlags :=
      AddSub.within_of_directForm? hrd hrn rfl hoperand hdirect
    exact .terminal within.isBuilt fun _ =>
      ⟨_, AddSub.execute_of_directForm? m hdirect, rfl, m, .refl m, rfl⟩

end Emit

/-! ## Operations -/

namespace Operation

/-- The addition or subtraction that an operation is, with its destination, its source and its
operand. -/
def sum? : Operation → Option (AddSubOp × Register × Register × Operand)
  | .addSub op rd rn operand => some (op, rd, rn, operand)
  | .cmp rn operand => some (.subs, .zero rn.view, rn, operand)
  | .cmn rn operand => some (.adds, .zero rn.view, rn, operand)
  | .neg rd operand => some (.sub, rd, .zero rd.view, operand)
  | _ => none

variable {o : Operation} {op : AddSubOp} {rd rn : Register} {operand : Operand} {s s' : Emitter}

/-- The operations that add are emitted as additions. -/
theorem emit_of_sum? (h : o.sum? = some (op, rd, rn, operand)) :
    o.emit = Emit.addSub op rd rn operand := by
  cases o <;> cases h <;> rfl

/-- The registers of an addition or subtraction are built if those of the operation are. -/
theorem isBuilt_of_sum? (h : o.sum? = some (op, rd, rn, operand))
    (hbuilt : ∀ r ∈ o.registers, r.IsBuilt) :
    rd.IsBuilt ∧ rn.IsBuilt ∧ ∀ r ∈ operand.register?, r.IsBuilt := by
  cases o <;> cases h <;> simp only [registers, List.forall_mem_cons] at hbuilt
  case addSub => exact ⟨hbuilt.1, hbuilt.2.1, fun r hr => hbuilt.2.2 r (Option.mem_toList.2 hr)⟩
  case neg =>
    exact ⟨hbuilt.1, Register.isBuilt_zero _, fun r hr => hbuilt.2 r (Option.mem_toList.2 hr)⟩
  all_goals
    exact ⟨Register.isBuilt_zero _, hbuilt.1, fun r hr => hbuilt.2 r (Option.mem_toList.2 hr)⟩

/-- **Additions and subtractions mean what they say.** Whenever the emission of an addition, a
subtraction, a comparison or a negation returns, from any pool, the words that it appends take every
machine to one where

* the destination, unless it is the zero register, holds the sum or the difference of the source and
  the operand at the width of the destination, with zeros above;
* the flags are those of the sum or the difference if the operation sets flags, and else what they
  were;
* nothing else has changed, except for registers of the pool that are no sources.

**Proof sketch.** What the words do composes along the emission (`AArch64.Emit.runs_addSub`), and
the word of a form does what the form does (`AArch64.Form.step_word`). -/
theorem sum_emit (hsum : o.sum? = some (op, rd, rn, operand))
    (hbuilt : ∀ r ∈ o.registers, r.IsBuilt) (h : o.emit.apply s = (.ok (), s')) :
    ∃ ws : List Word, s'.code.words = s.code.words ++ ws.toArray ∧
      ∀ m : Machine,
        let result := op.result (m.readAt rd.width rn) (operand.value m rd.width)
        ∃ m', m.run ws = some m' ∧
          (rd.isZero = false → m'.read rd = result.1.setWidth 64) ∧
          m'.flags = (if op.setsFlags then result.2 else m.flags) ∧
          m.AgreesBut (MayWrite [rd] (rn :: operand.register?.toList) s.pool)
            { m' with flags := m.flags } := by
  obtain ⟨hrd, hrn, hoperand⟩ := isBuilt_of_sum? hsum hbuilt
  rw [emit_of_sum? hsum] at h
  obtain ⟨ws, hws, hrun⟩ :=
    Emit.Runs.exists_of_ok (fun m => Emit.runs_addSub (m := m) hrd hrn hoperand) h
  refine ⟨ws, hws, fun m => ?_⟩
  obtain ⟨m', hm', -, hresult⟩ := hrun m
  exact ⟨m', hm', hresult.leaves.read_destination hrd, hresult.leaves.flags,
    hresult.leaves.agreesBut fun q code => .inl ⟨rd, .head _, code.symm⟩⟩

/-- A subtraction from the stack pointer of an immediate that no form holds, which sets the flags.
Its destination is in the pool. -/
def farSubtraction : Operation :=
  .addSub .subs ⟨16, .x⟩ (.stack .x) (.immediate (-0x12345678))

/-- The immediate is moved to the destination first, and then subtracted in the extended form. -/
theorem sum_emit_farSubtraction :
    (farSubtraction.emit.apply (.new .a64)).1 = .ok () ∧
      ∃ ws : List Word, (farSubtraction.emit.apply (.new .a64)).2.code.words =
          (Emitter.new .a64).code.words ++ ws.toArray ∧
        ∀ m : Machine, ∃ m', m.run ws = some m' ∧
          m'.read ⟨16, .x⟩ = m.stack - BitVec.ofInt 64 (-0x12345678) ∧
          m'.flags = .ofSub m.stack (BitVec.ofInt 64 (-0x12345678)) := by
  have returns : (farSubtraction.emit.apply (.new .a64)).1 = .ok () := rfl
  have built : ∀ r ∈ farSubtraction.registers, r.IsBuilt := by
    intro r hr
    rcases List.mem_pair.1 hr with rfl | rfl
    · exact .inl ⟨16, rfl⟩
    · exact Register.isBuilt_stack .x
  obtain ⟨ws, hws, hrun⟩ := sum_emit rfl built (Prod.ext returns rfl)
  refine ⟨returns, ws, hws, fun m => ?_⟩
  obtain ⟨m', hm', destination, flags, -⟩ := hrun m
  exact ⟨m', hm', destination rfl, flags⟩

end Operation

end AArch64
