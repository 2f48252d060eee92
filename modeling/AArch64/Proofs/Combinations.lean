import AArch64.Proofs.Moves

/-!
# What logical operations do

A logical operation leaves its sources combined bit by bit in its destination, the second one
complemented or not. The conjunction that sets flags sets them to the sign of the result and to
whether it is zero, and clears the carry and the overflow. This holds of all emissions: with a
bitmask immediate, with a shifted register, and through scratch registers. The stack pointer has no
place in the shifted form. As a source it is copied to a scratch register, and as a destination it
gets a copy of the result.

## Main definitions

* `AArch64.LogicalOp.result` — two values combined, and the flags.
* `AArch64.Operation.combination?` — the logical operation that an operation is.

## Main results

* `AArch64.Logical.execute_of_directForm?` — the forms that take the operand directly.
* `AArch64.Emit.runs_logical` — the words of a logical operation, of whatever emission.
* `AArch64.Operation.combination_emit` — what logical operations and the comparison do.
-/

set_option autoImplicit false

namespace AArch64

/-! ## Results -/

/-- The flags of a result that was combined bit by bit: its sign and whether it is zero, and neither
carry nor overflow. -/
def Flags.ofBits {w : Nat} (result : BitVec w) : Flags where
  negative := result.msb
  zero := result = 0#w
  carry := false
  overflow := false

namespace LogicalOp

variable {w : Nat}

/-- Two values combined bit by bit, with the complement of the second one if `invert`. -/
def combine (op : LogicalOp) (invert : Bool) (x y : BitVec w) : BitVec w :=
  let y := if invert then ~~~y else y
  match op with
  | .and | .ands => x &&& y
  | .orr => x ||| y
  | .eor => x ^^^ y

/-- Two values combined, and the flags of the result. -/
def result (op : LogicalOp) (invert : Bool) (x y : BitVec w) : BitVec w × Flags :=
  (op.combine invert x y, .ofBits (op.combine invert x y))

/-- What the forms compute. -/
theorem apply_eq_result (op : LogicalOp) (invert : Bool) (x y : BitVec w) :
    op.apply x (if invert then ~~~y else y) = op.result invert x y := by
  cases op <;> rfl

end LogicalOp

/-! ## Direct forms -/

namespace Logical

variable {op : LogicalOp} {invert : Bool} {rd rn rm : Register} {f : Form} (m : Machine)

/-- The shifted form combines the value of a shifted register. -/
theorem execute_logicalShifted (shift : Shift) (amount : Nat) :
    (Form.logicalShifted op invert rd rn rm shift amount).execute m =
      some (m.writeResult (op = .ands) rd
        (op.result invert (m.readAt rd.width rn) (shift.apply (m.readAt rd.width rm) amount))) := by
  rw [← LogicalOp.apply_eq_result]
  rfl

/-- The bitmask immediate is the value of the operand modulo the width, complemented if the
operation complements it. -/
theorem execute_of_immediateForm? {imm : Int}
    (h : immediateForm? op invert rd rn imm = .ok (some f)) :
    f.execute m = some (m.writeResult (op = .ands) rd
      (op.result invert (m.readAt rd.width rn) (BitVec.ofInt rd.width imm))) := by
  obtain ⟨imm', bitmask, himm, hencode, rfl⟩ := exists_of_immediateForm? h
  generalize hvalue : (if invert then _ else _) = value at hencode
  have operand : BitVec.ofNat rd.width value =
      if invert then ~~~BitVec.ofInt rd.width imm else BitVec.ofInt rd.width imm := by
    rw [← hvalue, ← Immediate.ofInt_of_atWidth? rd.width_eq_or himm, ← Immediate.ofNat_toBits,
      ← Immediate.ofNat_complement]
    split <;> rfl
  have masked : BitVec.ofNat rd.width (value % 2 ^ rd.width) = BitVec.ofNat rd.width value :=
    BitVec.eq_of_toNat_eq (Nat.mod_mod _ _)
  rw [Form.execute, Bitmask.value?_of_encode rd.width_eq_or hencode, Option.map_some, masked,
    operand, LogicalOp.apply_eq_result]

/-- **The forms that take an operand directly** combine its value. -/
theorem execute_of_directForm? {operand : Operand}
    (h : directForm? op invert rd rn operand = .ok (some f)) :
    f.execute m = some (m.writeResult (op = .ands) rd
      (op.result invert (m.readAt rd.width rn) (operand.value m rd.width))) := by
  cases operand with
  | immediate imm => exact execute_of_immediateForm? m h
  | register rm =>
    rw [eq_of_registerForm? (Except.ok.inj h), execute_logicalShifted, Shift.apply,
      BitVec.shiftLeft_zero]
    rfl
  | shifted rm shift amount =>
    rw [eq_of_registerForm? (Except.ok.inj h), execute_logicalShifted]
    rfl
  | extended => cases h

end Logical

/-! ## Emissions -/

namespace Emit

variable {s : Emitter} {m : Machine} {op : LogicalOp} {invert : Bool} {rd rn : Register}
  {operand : Operand}

/-- A register, or the copy of the stack pointer that stands for it, holds what the register held.
The copy is a register of the pool. -/
theorem runs_outOfStack (hrn : rn.IsBuilt) :
    (outOfStack rn).Runs s m fun r _ m' => r.IsBuilt ∧
      m'.readAt rn.width r = m.readAt rn.width rn ∧ m.AgreesBut (s.pool.contains ·) m' := by
  rw [outOfStack]
  split
  · next hstack =>
    have code : rn.code = Register.stackCode := of_decide_eq_true hstack
    have source : rn.isZero = false := by rw [Register.isZero, code]; rfl
    refine .acquire_bind fun copy hcopy hgeneral hmem hview => .bind (runs_copy hcopy hrn source) ?_
    rintro _ fs p _ ⟨-, rfl⟩
    have width : copy.width = rn.width := by rw [Register.width, Register.is64, hview]; rfl
    refine .pure ⟨hcopy, ?_, .write (fun q code => ?_) _⟩
    · rw [width]
      exact Machine.readAt_writeAt_self hcopy (copy.isZero_of_isGeneral hgeneral) rn.width_le _
    · rw [s.pool.contains_congr code]
      exact hmem
  · exact .pure ⟨hrn, rfl, .refl m⟩

/-- The operand is moved to a scratch register, which is no source, and the stack pointer is copied
from and to scratch registers. -/
theorem runs_logicalThroughScratch (hrd : rd.IsBuilt) (hrn : rn.IsBuilt)
    (hoperand : ∀ r ∈ operand.register?, r.IsBuilt) (hwidth : rn.width = rd.width) :
    (logicalThroughScratch op invert rd rn operand).Runs s m fun _ p m' => p = s.pool ∧
      m.Leaves (MayWrite [rd] (rn :: operand.register?.toList) s.pool) (op = .ands) rd
        (op.result invert (m.readAt rd.width rn) (operand.value m rd.width)) m' := by
  refine .scopeFor fun pool hpool => .acquire_bind fun temp htemp hgeneral hmem hview => ?_
  obtain ⟨code, rfl⟩ : ∃ code, temp = ⟨code, rd.view⟩ := ⟨temp.code, by rw [← hview]⟩
  obtain ⟨written, unread⟩ := hpool _ hmem
  have zero := Register.isZero_of_isGeneral hgeneral
  refine .bind (runs_mov htemp (Register.isStack_of_isGeneral hgeneral) hoperand) ?_
  rintro _ fs p _ ⟨hp, rfl⟩
  refine .bind (runs_outOfStack hrn) ?_
  rintro copy gs q m₂ ⟨hcopy, source, agrees⟩
  have changed : m.AgreesBut (MayWrite [rd] (rn :: operand.register?.toList) s.pool) m₂ := by
    refine .trans (.write (fun q code => written.congr code.symm) _) (agrees.mono fun r hr => ?_)
    rw [hp] at hr
    exact (hpool r (RegisterSet.contains_of_contains_erase hr)).1
  -- the copy is taken from the rest of the pool
  have moved : m₂.readAt rd.width ⟨code, rd.view⟩ = operand.value m rd.width := by
    rw [agrees.readAt (by rw [hp]; simp [emitted, RegisterSet.contains_erase])]
    exact Machine.readAt_writeAt_self htemp zero rd.width_le _
  rw [hwidth, Machine.readAt_writeAt_of_ne (unread rn (.head _))] at source
  have execute : ∀ d : BitVec 8,
      (Form.logicalShifted op invert ⟨d, rd.view⟩ copy ⟨code, rd.view⟩ .lsl 0).execute m₂ =
        some (m₂.writeResult (op = .ands) ⟨d, rd.view⟩
          (op.result invert (m.readAt rd.width rn) (operand.value m rd.width))) := by
    intro d
    rw [Logical.execute_logicalShifted, Shift.apply, BitVec.shiftLeft_zero, ← source, ← moved]
    rfl
  have within {d : Register} (hd : d.IsBuilt) :
      (Form.logicalShifted op invert d copy ⟨code, rd.view⟩ .lsl 0).Within (Eq d) _ :=
    Logical.within_logicalShifted hd hcopy htemp rfl _ _
  split
  · refine .bind (P := fun _ _ m' => m' = m₂.writeResult (op = .ands) ⟨code, rd.view⟩
        (op.result invert (m.readAt rd.width rn) (operand.value m rd.width)))
      (.terminal (within htemp).isBuilt fun _ => ⟨_, execute code, rfl⟩) ?_
    rintro _ hs p' _ rfl
    refine (runs_copy hrd htemp zero).mono ?_
    rintro _ p'' _ ⟨-, rfl⟩
    refine ⟨rfl, m₂.writeAt ⟨code, rd.view⟩
      (op.result invert (m.readAt rd.width rn) (operand.value m rd.width)).1,
      changed.trans (.write (fun q code => written.congr code.symm) _), ?_⟩
    rw [← Machine.writeAt_writeResult]
    exact congrArg _ (Machine.readAt_writeAt_self htemp zero rd.width_le _)
  · exact .terminal (within hrd).isBuilt fun _ => ⟨_, execute rd.code, rfl, m₂, changed, rfl⟩

/-- **A logical operation combines its sources bit by bit**, with the immediate modulo the width,
and writes the result to its destination. Before that, registers of the pool that are no sources may
change.

**Proof sketch.** The forms that take the operand directly do what is asked for
(`AArch64.Logical.execute_of_directForm?`). Otherwise the operand is moved to a register of the pool
(`AArch64.Emit.runs_mov`), and the stack pointer is copied to another one
(`AArch64.Emit.runs_outOfStack`). The first register may be the destination, but no source, so the
source is read as it was. For the stack pointer it also takes the result. -/
theorem runs_logical (hrd : rd.IsBuilt) (hrn : rn.IsBuilt)
    (hoperand : ∀ r ∈ operand.register?, r.IsBuilt) :
    (logical op invert rd rn operand).Runs s m fun _ p m' => p = s.pool ∧
      m.Leaves (MayWrite [rd] (rn :: operand.register?.toList) s.pool) (op = .ands) rd
        (op.result invert (m.readAt rd.width rn) (operand.value m rd.width)) m' := by
  refine .require_bind fun _ => .require_bind fun hwidths => .lift_bind fun direct hdirect => ?_
  cases direct with
  | none =>
    have width : rn.width = rd.width := by
      rw [Register.width, Register.width, of_decide_eq_true hwidths]
    exact runs_logicalThroughScratch hrd hrn hoperand width
  | some f =>
    have within : f.Within (Eq rd) (decide (op = .ands)) :=
      Logical.within_of_directForm? hrd hrn rfl hoperand hdirect
    exact .terminal within.isBuilt fun _ =>
      ⟨_, Logical.execute_of_directForm? m hdirect, rfl, m, .refl m, rfl⟩

end Emit

/-! ## Operations -/

namespace Operation

/-- The logical operation that an operation is, whether it complements its operand, its destination,
its source and its operand. -/
def combination? : Operation → Option (LogicalOp × Bool × Register × Register × Operand)
  | .logical op invert rd rn operand => some (op, invert, rd, rn, operand)
  | .tst rn operand => some (.ands, false, .zero rn.view, rn, operand)
  | _ => none

variable {o : Operation} {op : LogicalOp} {invert : Bool} {rd rn : Register} {operand : Operand}
  {s s' : Emitter}

/-- A logical operation with or without inversion is emitted as such. -/
theorem emit_of_combination? (h : o.combination? = some (op, invert, rd, rn, operand)) :
    o.emit = Emit.logical op invert rd rn operand := by
  cases o <;> cases h <;> rfl

/-- The registers of a logical operation are built if those of the operation are. -/
theorem isBuilt_of_combination? (h : o.combination? = some (op, invert, rd, rn, operand))
    (hbuilt : ∀ r ∈ o.registers, r.IsBuilt) :
    rd.IsBuilt ∧ rn.IsBuilt ∧ ∀ r ∈ operand.register?, r.IsBuilt := by
  cases o <;> cases h <;> simp only [registers, List.forall_mem_cons] at hbuilt
  case logical => exact ⟨hbuilt.1, hbuilt.2.1, fun r hr => hbuilt.2.2 r (Option.mem_toList.2 hr)⟩
  case tst =>
    exact ⟨Register.isBuilt_zero _, hbuilt.1, fun r hr => hbuilt.2 r (Option.mem_toList.2 hr)⟩

/-- **Logical operations mean what they say.** Whenever the emission of a logical operation or of a
comparison by conjunction returns, from any pool, the words that it appends take every machine to
one where

* the destination, unless it is the zero register, holds the source and the operand combined bit by
  bit at the width of the destination, with zeros above;
* the flags of the conjunction that sets flags are the sign of the result and whether it is zero,
  without carry and overflow, and other operations leave the flags what they were;
* nothing else has changed, except for registers of the pool that are no sources.

**Proof sketch.** What the words do composes along the emission (`AArch64.Emit.runs_logical`), and
the word of a form does what the form does (`AArch64.Form.step_word`). -/
theorem combination_emit (hcombination : o.combination? = some (op, invert, rd, rn, operand))
    (hbuilt : ∀ r ∈ o.registers, r.IsBuilt) (h : o.emit.apply s = (.ok (), s')) :
    ∃ ws : List Word, s'.code.words = s.code.words ++ ws.toArray ∧
      ∀ m : Machine,
        let result := op.combine invert (m.readAt rd.width rn) (operand.value m rd.width)
        ∃ m', m.run ws = some m' ∧
          (rd.isZero = false → m'.read rd = result.setWidth 64) ∧
          m'.flags = (if op = .ands then .ofBits result else m.flags) ∧
          m.AgreesBut (MayWrite [rd] (rn :: operand.register?.toList) s.pool)
            { m' with flags := m.flags } := by
  obtain ⟨hrd, hrn, hoperand⟩ := isBuilt_of_combination? hcombination hbuilt
  rw [emit_of_combination? hcombination] at h
  obtain ⟨ws, hws, hrun⟩ :=
    Emit.Runs.exists_of_ok (fun m => Emit.runs_logical (m := m) hrd hrn hoperand) h
  refine ⟨ws, hws, fun m => ?_⟩
  obtain ⟨m', hm', -, leaves⟩ := hrun m
  have flags := leaves.flags
  simp only [decide_eq_true_eq] at flags
  exact ⟨m', hm', leaves.read_destination hrd, flags,
    leaves.agreesBut fun q code => .inl ⟨rd, .head _, code.symm⟩⟩

/-- A conjunction of the stack pointer with the complement of an immediate that no form holds. It
sets the flags and writes the stack pointer. -/
def stackConjunction : Operation :=
  .logical .ands true (.stack .x) (.stack .x) (.immediate 0x12345)

/-- Two scratch registers are taken: one for the immediate and the result, one for the copy of the
stack pointer. -/
theorem combination_emit_stackConjunction :
    (stackConjunction.emit.apply (.new .a64)).1 = .ok () ∧
      ∃ ws : List Word, (stackConjunction.emit.apply (.new .a64)).2.code.words =
          (Emitter.new .a64).code.words ++ ws.toArray ∧
        ∀ m : Machine, ∃ m', m.run ws = some m' ∧
          m'.stack = m.stack &&& ~~~0x12345#64 ∧
          m'.flags.negative = (m.stack &&& ~~~0x12345#64).msb ∧
          m'.flags.zero = decide (m.stack &&& ~~~0x12345#64 = 0#64) ∧
          m'.flags.carry = false ∧ m'.flags.overflow = false := by
  have returns : (stackConjunction.emit.apply (.new .a64)).1 = .ok () := rfl
  have built : ∀ r ∈ stackConjunction.registers, r.IsBuilt := by
    intro r hr
    rcases List.mem_pair.1 hr with rfl | rfl
    · exact Register.isBuilt_stack .x
    · exact Register.isBuilt_stack .x
  obtain ⟨ws, hws, hrun⟩ := combination_emit rfl built (Prod.ext returns rfl)
  refine ⟨returns, ws, hws, fun m => ?_⟩
  obtain ⟨m', hm', destination, flags, -⟩ := hrun m
  exact ⟨m', hm', destination rfl, congrArg Flags.negative flags, congrArg Flags.zero flags,
    congrArg Flags.carry flags, congrArg Flags.overflow flags⟩

end Operation

end AArch64
