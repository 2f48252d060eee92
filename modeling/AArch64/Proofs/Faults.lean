import AArch64.Emitter.Operation
import AArch64.Proofs.CheckedArithmetic
import AArch64.Proofs.Emission
import AArch64.Proofs.FormSelection
import AArch64.Proofs.Outcome

/-!
# What emissions fault with

An emission may fault because its arguments fail a check, or because it finds no scratch register.
It could fault in other ways: its arithmetic might trap, an instruction that it ends with might turn
out to be several, a number in the pool might be no register's. The checks come before the
arithmetic that they guard, so none of this happens.

## Main definitions

* `AArch64.Fault.IsCheck` — a fault that is the answer of a check.
* `AArch64.Fault.IsInvalid` — a fault that is the answer of a check on the arguments.
* `AArch64.Validated` — a choice that fails because of its arguments only.
* `AArch64.Emit.Guarded` — an emission that faults in checks only.

## Main results

* `AArch64.Form.validated_check` — what forms are rejected with.
* `AArch64.Emit.Guarded.bind`, `AArch64.Emit.Guarded.scope`, `AArch64.Emit.Guarded.acquire` — the
  rules for emissions.
* `AArch64.Operation.guarded_emit` — every operation faults in checks only.
* `AArch64.Emit.isCheck_of_apply` — the same for every run of an operation or a form, and a form
  appends one word or nothing.
-/

set_option autoImplicit false

namespace AArch64

/-- Whether a rejection is about the arguments of a call, or about a pool without registers. The
others say that the lowering itself has gone wrong, or are about registers that are given back. -/
def Rejection.isCheck : Rejection → Bool
  | .registerNumber | .instructionCount | .releasedAvailable _ => false
  | _ => true

/-- A fault that is the answer of a check on the arguments or of a pool without registers. -/
def Fault.IsCheck (x : Fault) : Prop :=
  ∃ r : Rejection, r.isCheck ∧ x = .rejected r

/-- Whether a rejection is about the arguments of a call. -/
def Rejection.isInvalid (r : Rejection) : Bool :=
  r.isCheck && r ≠ .poolExhausted

/-- A fault that is the answer of a check on the arguments. -/
def Fault.IsInvalid (x : Fault) : Prop :=
  ∃ r : Rejection, r.isInvalid ∧ x = .rejected r

namespace Fault.IsInvalid

variable {x : Fault}

/-- A check on the arguments is a check. -/
theorem isCheck : x.IsInvalid → x.IsCheck
  | ⟨r, h, hx⟩ => ⟨r, (Bool.and_eq_true_iff.1 h).1, hx⟩

/-- A check on the arguments is not about a pool without registers. -/
theorem ne_poolExhausted : x.IsInvalid → x ≠ .rejected .poolExhausted
  | ⟨_, h, hx⟩, he => of_decide_eq_true (Bool.and_eq_true_iff.1 h).2
      (Fault.rejected.inj (hx.symm.trans he))

end Fault.IsInvalid

/-- A choice that fails because of its arguments only. -/
def Validated {α : Type} (x : Except Fault α) : Prop :=
  Outcome x (fun _ => True) Fault.IsInvalid

namespace Validated

variable {α β : Type}

/-- A choice that is made does not fail. -/
theorem ok {a : α} : Validated (.ok a) := trivial

/-- A choice may fail in a check on the arguments. -/
theorem rejected {r : Rejection} (h : r.isInvalid) :
    Validated (.error (.rejected r) : Except Fault α) :=
  ⟨r, h, rfl⟩

/-- A check on the arguments is a choice that fails because of them only. -/
theorem require {holds : Bool} {r : Rejection} (h : r.isInvalid) :
    Validated (require holds r : Except Fault Unit) := by
  cases holds with
  | true => exact ok
  | false => exact rejected h

/-- A choice may depend on another one. -/
theorem bind {x : Except Fault α} {k : α → Except Fault β} (h : Validated x)
    (hk : ∀ a, x = .ok a → Validated (k a)) : Validated (x >>= k) := by
  cases x with
  | ok a => exact hk a rfl
  | error y => exact h

/-- What follows a check may rely on it. -/
theorem require_bind {holds : Bool} {r : Rejection} {k : Unit → Except Fault β} (h : r.isInvalid)
    (hk : holds = true → Validated (k ())) : Validated (AArch64.require holds r >>= k) :=
  bind (require h) fun _ passed => hk (require_eq_ok_iff.1 passed)

/-- Arithmetic that has an answer. -/
theorem ofTrap_bind {x : Except Trap α} {a : α} {k : α → Except Fault β} (h : x = .ok a)
    (hk : Validated (k a)) : Validated (Fault.ofTrap x >>= k) := by
  rw [h]
  exact hk

end Validated

/-! ## Forms -/

namespace Form

/-- Comparing two widths fails because of the arguments only. -/
theorem validated_widths (a b : Register) : Validated (checkWidths a b) :=
  .require rfl

/-- So does the check of a destination. -/
theorem validated_destination {setsFlags : Bool} {rd : Register} {ifStack ifZero : Rejection}
    (hstack : ifStack.isInvalid) (hzero : ifZero.isInvalid) :
    Validated (checkDestination setsFlags rd ifStack ifZero) := by
  rw [checkDestination]
  split
  · exact .require hstack
  · exact .require hzero

/-- So does the check of a register that is loaded or stored. -/
theorem validated_transfer (op : LoadStoreOp) (rt : Register) :
    Validated (checkTransfer op rt) := by
  refine .require_bind rfl fun _ => ?_
  cases op with
  | ldrb | strb | ldrh | strh => exact .require rfl
  | ldrsw => exact .require rfl
  | _ => exact .ok

/-- The checks of a form say what is wrong with its arguments. -/
theorem validated_check (f : Form) : Validated f.check := by
  cases f with
  | addSubImmediate op rd rn imm12 shifted =>
    exact .require_bind rfl fun _ => .require_bind rfl fun _ =>
      .bind (validated_destination rfl rfl) fun _ _ => validated_widths rd rn
  | addSubShifted op rd rn rm shift amount =>
    exact .require_bind rfl fun _ => .require_bind rfl fun _ => .require_bind rfl fun _ =>
      .bind (validated_widths rd rn) fun _ _ => validated_widths rd rm
  | addSubExtended op rd rn rm extend amount =>
    exact .require_bind rfl fun _ => .require_bind rfl fun _ =>
      .bind (validated_destination rfl rfl) fun _ _ => validated_widths rd rn
  | logicalImmediate op rd rn bitmask =>
    exact .require_bind rfl fun _ => .require_bind rfl fun _ => .require_bind rfl fun _ =>
      .bind (validated_destination rfl rfl) fun _ _ => validated_widths rd rn
  | logicalShifted op invert rd rn rm shift amount =>
    exact .require_bind rfl fun _ => .require_bind rfl fun _ =>
      .bind (validated_widths rd rn) fun _ _ => validated_widths rd rm
  | moveWide op rd imm16 hw =>
    exact .require_bind rfl fun _ => .require_bind rfl fun _ => .require rfl
  | bitfield op rd rn immr imms =>
    exact .require_bind rfl fun _ => .require_bind rfl fun _ => validated_widths rd rn
  | extract rd rn rm lsb =>
    exact .require_bind rfl fun _ => .require_bind rfl fun _ =>
      .bind (validated_widths rd rn) fun _ _ => validated_widths rd rm
  | loadStoreUnsigned op rt base imm12 =>
    exact .bind (validated_transfer op rt) fun _ _ => .require_bind rfl fun _ => .require rfl
  | loadStoreIndexed op rt base offset mode =>
    exact .bind (validated_transfer op rt) fun _ _ => .require_bind rfl fun _ =>
      .require_bind rfl fun _ => .require rfl
  | loadStoreRegister op rt base index extend scaled =>
    exact .bind (validated_transfer op rt) fun _ _ => .require_bind rfl fun _ => .require rfl
  | branchRegister op rn => exact .require rfl
  | capabilityAddImmediate subtract cd cn imm12 shifted =>
    exact .require_bind rfl fun _ => .require_bind rfl fun _ => .require rfl
  | capabilityAddExtended cd cn rm extend amount =>
    exact .require_bind rfl fun _ => .require_bind rfl fun _ => .require_bind rfl fun _ =>
      .require rfl
  | capabilityBranch cn offset link => exact .require_bind rfl fun _ => .require rfl

/-- The checks of a form are checks. -/
theorem checked_check (f : Form) : Outcome f.check (fun _ => True) Fault.IsCheck :=
  f.validated_check.mono (fun _ h => h) fun _ h => h.isCheck

end Form

/-! ## The choice of a form -/

namespace Move

/-- The choice of forms for an immediate fails because of the arguments only. -/
theorem validated_immediateForms (rd : Register) (imm : Int) :
    Validated (immediateForms rd imm) := by
  rcases immediateForms_cases rd imm with ⟨imm', -, fs, hfs, -⟩ | ⟨-, rejected⟩
  · rw [hfs]
    exact .ok
  · rw [rejected]
    exact .rejected rfl

/-- So does the choice of a form for a shifted register. -/
theorem validated_shiftForm (rd rn : Register) (shift : Shift) (amount : Nat) :
    Validated (shiftForm rd rn shift amount) := by
  refine .require_bind rfl fun hamount => .require_bind rfl fun _ => ?_
  cases shift with
  | lsl =>
    dsimp only
    rw [leftShift_eq (of_decide_eq_true hamount)]
    exact .ok
  | _ => exact .ok

/-- So does the choice of a form for an extended register. -/
theorem validated_extendForm (rd rn : Register) (extend : Extend) (amount : Nat) :
    Validated (extendForm rd rn extend amount) := by
  refine .require_bind rfl fun hamount => .require_bind rfl fun _ => ?_
  have hamount : amount < rd.width := of_decide_eq_true hamount
  refine .ofTrap_bind (Bits.difference_of_le (by omega)) ?_
  dsimp only
  split
  · rw [leftShift_eq hamount]
    exact .ok
  · exact .ok

end Move

namespace AddSub

/-- The most negative value has no negative, and is not negated. -/
theorem validated_immediateForm? (op : AddSubOp) (rd rn : Register) (imm : Int) :
    Validated (immediateForm? op rd rn imm) := by
  rw [immediateForm?]
  split
  · next imm hat =>
    split
    · exact .ok
    · split
      · exact .ok
      · split
        · exact .ok
        · next other =>
          refine .ofTrap_bind (Immediate.negate_eq (Immediate.ne_mostNegative hat other)) ?_
          split
          · exact .ok
          · exact .ok
  · exact .rejected rfl

/-- The choice of a form that adds the operand fails because of the arguments only. -/
theorem validated_directForm? (op : AddSubOp) (rd rn : Register) (operand : Operand) :
    Validated (directForm? op rd rn operand) := by
  cases operand with
  | immediate imm => exact validated_immediateForm? op rd rn imm
  | _ => exact .ok

end AddSub

namespace Logical

/-- The choice of a form for the bitmask of an immediate fails because of the arguments only. -/
theorem validated_immediateForm? (op : LogicalOp) (invert : Bool) (rd rn : Register) (imm : Int) :
    Validated (immediateForm? op invert rd rn imm) := by
  obtain ⟨k, hk, width⟩ := rd.exists_width_eq
  rw [immediateForm?]
  split
  · dsimp only
    generalize (rn.isStack || _) = refused
    split
    · exact .ok
    · refine .ofTrap_bind (width ▸ Bitmask.encode_eq _ hk) ?_
      split
      · exact .ok
      · exact .ok
  · exact .rejected rfl

/-- So does the choice of a form for any operand of a combination. -/
theorem validated_directForm? (op : LogicalOp) (invert : Bool) (rd rn : Register)
    (operand : Operand) : Validated (directForm? op invert rd rn operand) := by
  cases operand with
  | immediate imm => exact validated_immediateForm? op invert rd rn imm
  | _ => exact .ok

end Logical

/-- The choice of a form for an offset fails because of the arguments only. -/
theorem LoadStore.validated_offsetForm? (op : LoadStoreOp) (rt base : Register) (offset : Int) :
    Validated (offsetForm? op rt base offset) := by
  rw [offsetForm?_eq]
  exact .ok

/-! ## Emissions -/

namespace Emit

/-- From every state with a proper pool: an emission that returns leaves a proper pool, and one that
faults does so in a check. -/
def Guarded {α : Type} (e : Emit α) : Prop :=
  ∀ s : Emitter, s.pool.IsProper →
    e.Meets s (fun _ _ pool => pool.IsProper) fun x _ _ => x.IsCheck

namespace Guarded

variable {α β : Type} {e : Emit α}

/-- An emission that only answers leaves the pool as it is. -/
theorem pure {a : α} : (Pure.pure a : Emit α).Guarded :=
  fun _ hs => Meets.pure hs

/-- An emission may fault in a check. -/
theorem rejected {r : Rejection} (h : r.isCheck) : (throw (.rejected r) : Emit α).Guarded :=
  fun _ _ => Meets.throw ⟨r, h, rfl⟩

/-- An emission may go on from another one. -/
theorem bind {k : α → Emit β} (h : e.Guarded) (hk : ∀ a, (k a).Guarded) : (e >>= k).Guarded :=
  fun s hs => (h s hs).bind fun a fs pool hpool => hk a (emitted s fs pool) hpool

/-- A choice that fails in checks only goes on with what was chosen. -/
theorem lift_bind {x : Except Fault α} {k : α → Emit β} (h : Validated x)
    (hk : ∀ a, (k a).Guarded) : (lift x >>= k).Guarded :=
  bind (fun _ hs => Meets.lift (fun _ _ => hs) fun _ hx => (h.of_error hx).isCheck) hk

/-- What follows a check is reached with the pool as it was. -/
theorem require_bind {holds : Bool} {r : Rejection} {k : Unit → Emit β} (h : r.isCheck)
    (hk : (k ()).Guarded) : (require holds r >>= k).Guarded :=
  bind (fun _ hs => Meets.require (fun _ => hs) fun _ => ⟨r, h, rfl⟩) fun _ => hk

/-- What reads the state first may depend on it. -/
theorem get_bind {k : Emitter → Emit α} (h : ∀ s, (k s).Guarded) : (get >>= k).Guarded :=
  fun s hs => Meets.get_bind (h s s hs)

/-- The emission of a form faults in its checks only. -/
theorem form (f : Form) : (form f).Guarded :=
  fun _ hs => Meets.form (fun _ => hs) fun _ hx => f.checked_check.of_error hx

/-- What has to be one instruction is one. -/
theorem terminal (f : Form) : (terminal f).Guarded :=
  terminal_eq f ▸ form f

/-- Several forms fault in their checks only, too. -/
theorem forms (fs : List Form) : (forms fs).Guarded :=
  fun _ hs => Meets.forms hs fun f _ _ hx _ => f.checked_check.of_error hx

/-- After a scope the pool is the one from before it. -/
theorem scope {body : Emit α} (h : body.Guarded) : (scope body).Guarded :=
  fun s hs => Meets.scope ((h s hs).mono (fun _ _ _ _ => hs) fun _ _ _ hx => hx)

/-- Reserving registers leaves a proper pool. -/
theorem reserve (rs : List Register) : (reserve rs).Guarded :=
  fun _ hs => Meets.reserve (hs.eraseMany rs)

/-- Offering registers leaves a proper pool. -/
theorem offer (rs : List Register) : (offer rs).Guarded :=
  fun _ hs => Meets.offer (hs.insertMany rs)

/-- The first number of a proper pool is that of a register. -/
theorem acquire (view : RegisterView) : (acquire view).Guarded := by
  intro s hs
  refine Meets.acquire (fun n r _ _ => hs.erase r) (fun _ => ⟨_, rfl, rfl⟩) fun n hn hr => ?_
  obtain ⟨r, register⟩ := hs.exists_of_first? hn view
  rw [hr] at register
  cases register

/-- A scope for an operation leaves a proper pool, and faults in checks only if its body does. -/
theorem scopeFor {rd : Register} {sources : List Register} {body : Emit α} (h : body.Guarded) :
    (scopeFor rd sources body).Guarded := by
  refine scope (bind (reserve sources) fun _ => ?_)
  split
  · exact bind (offer [rd]) fun _ => h
  · exact h

end Guarded

/-! ### Integer operations -/

/-- The move of an immediate faults in checks only. -/
theorem guarded_movImmediate (rd : Register) (imm : Int) : (movImmediate rd imm).Guarded := by
  rw [movImmediate]
  split
  · refine .scope (.bind (.acquire _) fun temp => ?_)
    exact .lift_bind (Move.validated_immediateForms temp imm) fun fs =>
      .bind (.forms fs) fun _ => .terminal _
  · exact .lift_bind (Move.validated_immediateForms rd imm) fun fs => .forms fs

/-- Every move faults in checks only. -/
theorem guarded_mov (rd : Register) (operand : Operand) : (mov rd operand).Guarded := by
  cases operand with
  | immediate imm => exact guarded_movImmediate rd imm
  | register rm =>
    rw [mov]
    split
    · exact guarded_movImmediate rd 0
    · exact .terminal _
  | shifted rn shift amount =>
    exact .lift_bind (Move.validated_shiftForm rd rn shift amount) fun f => .terminal f
  | extended rn extend amount =>
    exact .lift_bind (Move.validated_extendForm rd rn extend amount) fun f => .terminal f

/-- Additions and subtractions fault in checks only. -/
theorem guarded_addSub (op : AddSubOp) (rd rn : Register) (operand : Operand) :
    (addSub op rd rn operand).Guarded := by
  refine .require_bind rfl (.require_bind rfl (.require_bind rfl ?_))
  refine .lift_bind (AddSub.validated_directForm? op rd rn operand) fun direct => ?_
  cases direct with
  | some f => exact .terminal f
  | none =>
    refine .scopeFor (.bind (.acquire _) fun temp => .bind (guarded_mov temp operand) fun _ => ?_)
    split
    · exact .terminal _
    · exact .rejected rfl

/-- A copy of the stack pointer into a scratch register faults in checks only. -/
theorem guarded_outOfStack (rn : Register) : (outOfStack rn).Guarded := by
  rw [outOfStack]
  split
  · exact .bind (.acquire _) fun copy => .bind (guarded_mov copy _) fun _ => .pure
  · exact .pure

/-- Combinations fault in checks only. -/
theorem guarded_logical (op : LogicalOp) (invert : Bool) (rd rn : Register) (operand : Operand) :
    (logical op invert rd rn operand).Guarded := by
  refine .require_bind rfl (.require_bind rfl ?_)
  refine .lift_bind (Logical.validated_directForm? op invert rd rn operand) fun direct => ?_
  cases direct with
  | some f => exact .terminal f
  | none =>
    refine .scopeFor (.bind (.acquire _) fun temp => .bind (guarded_mov temp operand) fun _ => ?_)
    refine .bind (guarded_outOfStack rn) fun copy => ?_
    split
    · exact .bind (.terminal _) fun _ => guarded_mov rd _
    · exact .terminal _

/-- An access through a scratch register faults in checks only. -/
theorem guarded_accessThroughScratch (op : LoadStoreOp) (rt base : Register)
    (reserved : List Register) (operand : Operand) :
    (accessThroughScratch op rt base reserved operand).Guarded :=
  .scope (.bind (.reserve _) fun _ => .bind (.acquire _) fun temp =>
    .bind (guarded_addSub .add temp base operand) fun _ => .terminal _)

/-- The update of a base faults in checks only. -/
theorem guarded_updateBase (rt base : Register) (offset : Int) :
    (updateBase rt base offset).Guarded :=
  .scope (.bind (.reserve _) fun _ => guarded_addSub .add base base _)

/-- Loads and stores fault in checks only. -/
theorem guarded_loadStore (op : LoadStoreOp) (rt : Register) (mem : MemOperand) :
    (loadStore op rt mem).Guarded := by
  refine .require_bind rfl (.require_bind rfl ?_)
  cases mem with
  | offset base offset =>
    refine .lift_bind (LoadStore.validated_offsetForm? op rt base offset) fun direct => ?_
    cases direct with
    | some f => exact .terminal f
    | none => exact guarded_accessThroughScratch op rt base _ _
  | preIndex base offset =>
    dsimp only
    split
    · exact .terminal _
    · exact .bind (guarded_updateBase rt base offset) fun _ => .terminal _
  | postIndex base offset =>
    dsimp only
    split
    · exact .terminal _
    · exact .bind (.terminal _) fun _ => guarded_updateBase rt base offset
  | registerOffset base index extend amount =>
    dsimp only
    split
    · exact .terminal _
    · exact guarded_accessThroughScratch op rt base _ _

/-! ### Branches and capabilities -/

/-- Branches fault in checks only. -/
theorem guarded_branch (op : BranchOp) (rn : Register) : (branch op rn).Guarded := by
  refine .get_bind fun s => ?_
  cases s.isa with
  | a64 => exact .require_bind rfl (.terminal _)
  | c64 => exact .require_bind rfl (.terminal _)

/-- So does a return. -/
theorem guarded_ret : ret.Guarded := by
  refine .get_bind fun s => ?_
  cases s.isa with
  | a64 => exact guarded_branch .ret _
  | c64 => exact guarded_branch .ret _

/-- The addition to a capability faults in checks only. -/
theorem guarded_capabilityAdd (cd cn : Register) (offset : Int) :
    (capabilityAdd cd cn offset).Guarded := by
  rw [capabilityAdd]
  split
  · exact .terminal _
  · exact .scope (.bind (.reserve _) fun _ => .bind (.acquire _) fun temp =>
      .bind (guarded_movImmediate temp offset) fun _ => .terminal _)

/-- Branches through memory fault in checks only. -/
theorem guarded_branchCapability (mem : MemOperand) (link : Bool) :
    (branchCapability mem link).Guarded := by
  refine .get_bind fun s => .require_bind rfl ?_
  cases mem with
  | offset base offset =>
    refine .require_bind rfl ?_
    split
    · exact .terminal _
    · exact .scope (.bind (.reserve _) fun _ => .bind (.acquire _) fun temp =>
        .bind (guarded_capabilityAdd temp base offset) fun _ => .terminal _)
  | _ => exact .rejected rfl

end Emit

/-- Every operation faults in checks only. -/
theorem Operation.guarded_emit (op : Operation) : op.emit.Guarded := by
  cases op with
  | addSub op rd rn operand => exact Emit.guarded_addSub op rd rn operand
  | cmp rn operand => exact Emit.guarded_addSub .subs _ rn operand
  | cmn rn operand => exact Emit.guarded_addSub .adds _ rn operand
  | neg rd operand => exact Emit.guarded_addSub .sub rd _ operand
  | logical op invert rd rn operand => exact Emit.guarded_logical op invert rd rn operand
  | tst rn operand => exact Emit.guarded_logical .ands false _ rn operand
  | mov rd operand => exact Emit.guarded_mov rd operand
  | loadStore op rt mem => exact Emit.guarded_loadStore op rt mem
  | branch op rn => exact Emit.guarded_branch op rn
  | ret => exact Emit.guarded_ret
  | branchCapability mem link => exact Emit.guarded_branchCapability mem link
  | capabilityAdd cd cn offset => exact Emit.guarded_capabilityAdd cd cn offset

namespace Emit

/-- **Emissions fault in checks only.** Whatever the arguments of an operation are, codes that name
no register and amounts, immediates and offsets of any size among them, and whatever the state is,
if only the pool has no number 31: an operation that does not return was stopped by a check on its
arguments or found no scratch register. No arithmetic traps, an instruction that an operation ends
with is one, and every number that is taken from the pool is a register's. The same holds of a form,
which appends one word or changes nothing.

**Proof sketch.** The checks of forms have no other answers (`AArch64.Form.checked_check`), and the
choice of a form checks the width before it shifts, subtracts or negates, and otherwise stays within
64 bits (`AArch64.Bitmask.encode_eq`, `AArch64.Move.checked_extendForm`). Both are carried through
every lowering by the rules for emissions, together with the proper pool. -/
theorem isCheck_of_apply (s : Emitter) :
    (s.pool.IsProper → ∀ (op : Operation) x, (op.emit.apply s).1 = .error x → x.IsCheck) ∧
      (∀ f : Form, (form f).apply s = (.ok (), { s with code := s.code.emit f.word }) ∨
        ∃ x : Fault, x.IsCheck ∧ (form f).apply s = (.error x, s)) ∧
      ∀ w, (word w).apply s = (.ok (), { s with code := s.code.emit w }) := by
  refine ⟨fun hs op x hx => ?_, fun f => ?_, fun w => rfl⟩
  · obtain ⟨fs, pool, -, -, outcome⟩ := op.guarded_emit s hs
    rw [hx] at outcome
    exact outcome
  · rw [apply_form]
    cases hcheck : f.check with
    | ok u => exact .inl rfl
    | error x => exact .inr ⟨x, f.checked_check.of_error hcheck, rfl⟩

/-- A comparison with an immediate that no form holds finds no register in an empty pool. -/
theorem isCheck_of_apply_emptyPool :
    RegisterSet.empty.IsProper ∧
      ((Operation.cmp ⟨1, .x⟩ (.immediate (-2 ^ 63))).emit.apply
        { Emitter.new .a64 with pool := .empty }).1 = .error (.rejected .poolExhausted) ∧
      (Fault.rejected .poolExhausted).IsCheck := by
  have proper : RegisterSet.empty.IsProper := rfl
  have faults : ((Operation.cmp ⟨1, .x⟩ (.immediate (-2 ^ 63))).emit.apply
      { Emitter.new .a64 with pool := .empty }).1 = .error (.rejected .poolExhausted) := rfl
  exact ⟨proper, faults,
    (isCheck_of_apply { Emitter.new .a64 with pool := .empty }).1 proper _ _ faults⟩

end Emit

end AArch64
