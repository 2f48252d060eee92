import AArch64.Proofs.Faults
import AArch64.Proofs.OperationFrame
import AArch64.Proofs.Production
import Mathlib.Data.Finset.Card

/-!
# How many scratch registers are needed

An operation may fall back on others, each of which opens a scope, withdraws registers from the pool
and takes temporaries out of it. How many registers the pool has to hold besides those of the
operation is added up along the nesting: a temporary counts one for what comes after it in its
scope, and whatever is withdrawn was not counted in the first place. No operation gets beyond two.

## Main definitions

* `AArch64.RegisterSet.HasFree` — a pool with a number of registers besides some.
* `AArch64.Emit.NeedsAtMost` — an emission that makes do with such a pool.

## Main results

* `AArch64.Emit.NeedsAtMost.bind`, `AArch64.Emit.NeedsAtMost.acquire_bind` — the rules for
  emissions.
* `AArch64.Operation.needsAtMost_emit` — operations need at most two.
* `AArch64.Operation.ne_poolExhausted_of_two_free` — two registers in the pool that are none of the
  operation's are always enough.
-/

set_option autoImplicit false

namespace AArch64

/-! ## Free registers -/

namespace RegisterSet

variable {s t : RegisterSet} {n : Nat} {reserved : List (BitVec 8)}

/-- A set has at least `n` registers besides those with reserved codes. -/
def HasFree (s : RegisterSet) (n : Nat) (reserved : List (BitVec 8)) : Prop :=
  ∃ codes : Finset (BitVec 8), n ≤ codes.card ∧
    ∀ r : Register, r.code ∈ codes → s.contains r ∧ r.code ∉ reserved

namespace HasFree

/-- Free registers stay free in a set that has them. -/
theorem mono (h : s.HasFree n reserved)
    (ht : ∀ r, s.contains r → r.code ∉ reserved → t.contains r) : t.HasFree n reserved := by
  obtain ⟨codes, card, free⟩ := h
  exact ⟨codes, card, fun r hr => ⟨ht r (free r hr).1 (free r hr).2, (free r hr).2⟩⟩

/-- To withdraw reserved registers takes none of the free ones. -/
theorem eraseMany (h : s.HasFree n reserved) {rs : List Register}
    (hrs : ∀ q ∈ rs, q.isGeneral → q.code ∈ reserved) : (s.eraseMany rs).HasFree n reserved := by
  refine h.mono fun r hr free => contains_eraseMany_iff.2 ⟨hr, fun q hq code => free ?_⟩
  have general : q.isGeneral := by
    rw [Register.isGeneral, code]
    exact isGeneral_of_contains hr
  exact code ▸ hrs q hq general

/-- More registers in the set leave it as many free ones. -/
theorem insertMany (h : s.HasFree n reserved) (rs : List Register) :
    (s.insertMany rs).HasFree n reserved := by
  refine h.mono fun r hr _ => ?_
  rw [contains_insertMany, hr, Bool.true_or]

/-- A register that is taken out leaves all free registers but one. -/
theorem erase (h : s.HasFree (n + 1) reserved) (q : Register) :
    (s.erase q).HasFree n (q.code :: reserved) := by
  obtain ⟨codes, card, free⟩ := h
  refine ⟨codes.erase q.code, ?_, fun r hr => ?_⟩
  · have dropped := Finset.pred_card_le_card_erase (s := codes) (a := q.code)
    omega
  · obtain ⟨other, hr⟩ := Finset.mem_erase.1 hr
    rw [contains_erase, (free r hr).1]
    exact ⟨decide_eq_true other, List.not_mem_cons_of_ne_of_not_mem other (free r hr).2⟩

/-- A set with a free register has a lowest register. -/
theorem first?_ne_none (h : s.HasFree (n + 1) reserved) : s.first? ≠ none := by
  obtain ⟨codes, card, free⟩ := h
  obtain ⟨code, hcode⟩ : codes.Nonempty := Finset.card_pos.1 (by omega)
  intro none
  have member := (free ⟨code, .x⟩ hcode).1
  rw [first?_eq_none_iff.1 none] at member
  simp [contains, empty] at member

end HasFree

/-- Two registers of a set are free unless they are reserved. -/
theorem hasFree_two {a b : Register} (ha : s.contains a) (hb : s.contains b)
    (hab : a.code ≠ b.code) (hreserved : ∀ c ∈ reserved, c ≠ a.code ∧ c ≠ b.code) :
    s.HasFree 2 reserved := by
  refine ⟨{a.code, b.code}, (Finset.card_pair hab).ge, fun r hr => ?_⟩
  rw [Finset.mem_insert, Finset.mem_singleton] at hr
  rcases hr with hr | hr
  · exact ⟨s.contains_congr hr ▸ ha, fun h => (hreserved _ h).1 hr⟩
  · exact ⟨s.contains_congr hr ▸ hb, fun h => (hreserved _ h).2 hr⟩

end RegisterSet

/-! ## Emissions -/

namespace Emit

/-- An emission does not run out of scratch registers if the pool has `n` of them, besides those
with reserved codes. -/
def NeedsAtMost {α : Type} (e : Emit α) (n : Nat) (reserved : List (BitVec 8)) : Prop :=
  ∀ s : Emitter, s.pool.HasFree n reserved → (e.apply s).1 ≠ .error (.rejected .poolExhausted)

namespace NeedsAtMost

variable {α β : Type} {e : Emit α} {n : Nat} {reserved : List (BitVec 8)}

/-- Returning at once needs nothing. -/
theorem pure {a : α} : (Pure.pure a : Emit α).NeedsAtMost n reserved :=
  fun _ _ h => nomatch h

/-- A fault other than an empty pool needs nothing. -/
theorem throw {x : Fault} (hx : x ≠ .rejected .poolExhausted) :
    (throw x : Emit α).NeedsAtMost n reserved :=
  fun _ _ h => hx (Except.error.inj h)

/-- A second emission finds the pool of the first one, if that keeps it. -/
theorem bind {P : Form → Prop} {k : α → Emit β} (h : e.NeedsAtMost n reserved)
    (hkeeps : e.Produces P true) (hk : ∀ a, (k a).NeedsAtMost n reserved) :
    (e >>= k).NeedsAtMost n reserved := by
  intro s hs
  have first := h s hs
  have kept : (e.apply s).2.pool = s.pool := by
    obtain ⟨fs, -, -, hfs⟩ := hkeeps.exists_emitted s
    rw [hfs]
    rfl
  rw [apply_bind]
  cases hrun : e.apply s with
  | mk answer s' =>
    rw [hrun] at first kept
    cases answer with
    | error x => exact fun h => first (congrArg Except.error (Except.error.inj h))
    | ok a => exact hk a s' (kept ▸ hs)

/-- A choice that fails because of its arguments only needs nothing. -/
theorem lift_bind {x : Except Fault α} {k : α → Emit β} (h : Validated x)
    (hk : ∀ a, (k a).NeedsAtMost n reserved) : (lift x >>= k).NeedsAtMost n reserved := by
  cases x with
  | ok a => exact hk a
  | error y => exact throw (Fault.IsInvalid.ne_poolExhausted h)

/-- A requirement on the operands needs nothing. -/
theorem require_bind {holds : Bool} {r : Rejection} {k : Unit → Emit β} (h : r.isInvalid)
    (hk : (k ()).NeedsAtMost n reserved) : (require holds r >>= k).NeedsAtMost n reserved := by
  cases holds with
  | true => exact hk
  | false => exact throw (Fault.IsInvalid.ne_poolExhausted ⟨r, h, rfl⟩)

/-- Reading the state needs nothing. -/
theorem get_bind {k : Emitter → Emit α} (h : ∀ s, (k s).NeedsAtMost n reserved) :
    (get >>= k).NeedsAtMost n reserved :=
  fun s hs => h s s hs

/-- Forms need no scratch registers. -/
theorem forms (fs : List Form) : (forms fs).NeedsAtMost n reserved := by
  intro s _ h
  have invalid : (Emit.forms fs).Meets s (fun _ _ _ => True) fun x _ _ => x.IsInvalid :=
    Meets.forms trivial fun f _ _ hx _ => f.validated_check.of_error hx
  obtain ⟨gs, p, -, -, invalid⟩ := invalid
  rw [h] at invalid
  exact invalid.ne_poolExhausted rfl

/-- The last form of an operation needs nothing. -/
theorem terminal (f : Form) : (terminal f).NeedsAtMost n reserved :=
  forms [f]

/-- Emitting forms needs nothing. -/
theorem forms_bind (fs : List Form) {k : Unit → Emit β} (hk : (k ()).NeedsAtMost n reserved) :
    (Emit.forms fs >>= k).NeedsAtMost n reserved :=
  bind (forms fs) (.forms (P := fun _ => True) fun _ _ => trivial) fun _ => hk

/-- Emitting a form that is checked needs nothing. -/
theorem terminal_bind {f : Form} {k : Unit → Emit β} (hk : (k ()).NeedsAtMost n reserved) :
    (Emit.terminal f >>= k).NeedsAtMost n reserved :=
  forms_bind [f] hk

/-- A scope needs what its body needs. -/
theorem scope {body : Emit α} (h : body.NeedsAtMost n reserved) :
    (scope body).NeedsAtMost n reserved :=
  h

/-- Taking reserved registers out of the pool needs nothing. -/
theorem reserve_bind {rs : List Register} {k : Unit → Emit β}
    (hrs : ∀ q ∈ rs, q.isGeneral → q.code ∈ reserved) (hk : (k ()).NeedsAtMost n reserved) :
    (reserve rs >>= k).NeedsAtMost n reserved := by
  intro s hs
  rw [reserve_eq]
  exact hk { s with pool := s.pool.eraseMany rs } (hs.eraseMany hrs)

/-- Putting registers into the pool needs nothing. -/
theorem offer_bind {rs : List Register} {k : Unit → Emit β} (hk : (k ()).NeedsAtMost n reserved) :
    (offer rs >>= k).NeedsAtMost n reserved := by
  intro s hs
  rw [offer_eq]
  exact hk { s with pool := s.pool.insertMany rs } (hs.insertMany rs)

/-- A scratch register is one more, and is reserved afterwards. -/
theorem acquire_bind {view : RegisterView} {k : Register → Emit β}
    (hk : ∀ temp, temp.isGeneral → (k temp).NeedsAtMost n (temp.code :: reserved)) :
    (acquire view >>= k).NeedsAtMost (n + 1) reserved := by
  intro s hs
  rw [apply_bind, apply_acquire]
  cases hfirst : s.pool.first? with
  | none => exact absurd hfirst hs.first?_ne_none
  | some i =>
    dsimp only
    cases hr : Register.general? i view with
    | none => exact fun h => nomatch h
    | some r =>
      have general := RegisterSet.isGeneral_of_contains (RegisterSet.contains_of_first? hfirst hr)
      exact hk r general { s with pool := s.pool.erase r } (hs.erase r)

/-- A scope for a destination and sources needs what its body needs. -/
theorem scopeFor {rd : Register} {sources : List Register} {body : Emit α}
    (hsources : ∀ q ∈ sources, q.isGeneral → q.code ∈ reserved)
    (h : body.NeedsAtMost n reserved) : (scopeFor rd sources body).NeedsAtMost n reserved := by
  refine scope (reserve_bind hsources ?_)
  split
  · exact offer_bind h
  · exact h

end NeedsAtMost

/-! ### Integer operations -/

variable {n : Nat} {reserved : List (BitVec 8)} {rd rn : Register} {operand : Operand}

/-- An immediate needs no scratch register unless it is moved to the stack pointer. -/
theorem needsAtMost_movImmediate_of_isGeneral (hrd : rd.isGeneral) (imm : Int) :
    (movImmediate rd imm).NeedsAtMost n reserved := by
  rw [movImmediate, Register.isStack_of_isGeneral hrd]
  exact .lift_bind (Move.validated_immediateForms rd imm) fun fs => .forms fs

/-- A move of an immediate needs at most one temporary. -/
theorem needsAtMost_movImmediate (rd : Register) (imm : Int) :
    (movImmediate rd imm).NeedsAtMost (n + 1) reserved := by
  rw [movImmediate]
  split
  · refine .scope (.acquire_bind fun temp _ => ?_)
    exact .lift_bind (Move.validated_immediateForms temp imm) fun fs =>
      .forms_bind fs (.terminal _)
  · exact .lift_bind (Move.validated_immediateForms rd imm) fun fs => .forms fs

/-- A move needs a scratch register only for an immediate, or for zero. -/
theorem needsAtMost_mov (h : ∀ imm, (movImmediate rd imm).NeedsAtMost n reserved)
    (operand : Operand) : (mov rd operand).NeedsAtMost n reserved := by
  cases operand with
  | immediate imm => exact h imm
  | register rm =>
    rw [mov]
    split
    · exact h 0
    · exact .terminal _
  | shifted rn shift amount =>
    exact .lift_bind (Move.validated_shiftForm rd rn shift amount) fun f => .terminal f
  | extended rn extend amount =>
    exact .lift_bind (Move.validated_extendForm rd rn extend amount) fun f => .terminal f

/-- An operand is moved to a scratch register without a further one. -/
theorem needsAtMost_mov_of_isGeneral (hrd : rd.isGeneral) (operand : Operand) :
    (mov rd operand).NeedsAtMost n reserved :=
  needsAtMost_mov (needsAtMost_movImmediate_of_isGeneral hrd) operand

/-- An addition or subtraction needs at most one temporary. -/
theorem needsAtMost_addSub (op : AddSubOp) (rd : Register)
    (hsources : ∀ q ∈ rn :: operand.register?.toList, q.isGeneral → q.code ∈ reserved) :
    (addSub op rd rn operand).NeedsAtMost (n + 1) reserved := by
  refine .require_bind rfl (.require_bind rfl (.require_bind rfl ?_))
  refine .lift_bind (AddSub.validated_directForm? op rd rn operand) fun direct => ?_
  cases direct with
  | some f => exact .terminal f
  | none =>
    refine .scopeFor hsources (.acquire_bind fun temp htemp => ?_)
    refine .bind (needsAtMost_mov_of_isGeneral htemp operand) (produces_mov temp operand)
      fun _ => ?_
    split
    · exact .terminal _
    · exact .throw nofun

/-- A copy of the stack pointer is one more scratch register. -/
theorem needsAtMost_outOfStack_bind {k : Register → Emit Unit}
    (hk : ∀ copy m codes, (k copy).NeedsAtMost m codes) :
    (outOfStack rn >>= k).NeedsAtMost (n + 1) reserved := by
  rw [outOfStack]
  split
  · simp only [bind_assoc, pure_bind]
    refine .acquire_bind fun copy hcopy => ?_
    exact .bind (needsAtMost_mov_of_isGeneral hcopy _) (produces_mov copy _) fun _ => hk _ _ _
  · simp only [pure_bind]
    exact hk rn _ _

/-- A logical operation needs at most two temporaries. -/
theorem needsAtMost_logical (op : LogicalOp) (invert : Bool) (rd : Register)
    (hsources : ∀ q ∈ rn :: operand.register?.toList, q.isGeneral → q.code ∈ reserved) :
    (logical op invert rd rn operand).NeedsAtMost (n + 2) reserved := by
  refine .require_bind rfl (.require_bind rfl ?_)
  refine .lift_bind (Logical.validated_directForm? op invert rd rn operand) fun direct => ?_
  cases direct with
  | some f => exact .terminal f
  | none =>
    refine .scopeFor hsources (.acquire_bind fun temp htemp => ?_)
    refine .bind (needsAtMost_mov_of_isGeneral htemp operand) (produces_mov temp operand)
      fun _ => ?_
    refine needsAtMost_outOfStack_bind fun copy m codes => ?_
    split
    · refine .terminal_bind ?_
      rw [mov, Register.isZero_of_isGeneral htemp]
      exact .terminal _
    · exact .terminal _

/-! ### Loads and stores -/

/-- The address is one scratch register, and the addition that computes it may need another. -/
theorem needsAtMost_accessThroughScratch (op : LoadStoreOp) {rt base : Register}
    {withdrawn : List Register} (hwithdrawn : ∀ q ∈ withdrawn, q.isGeneral → q.code ∈ reserved)
    (hsources : ∀ q ∈ base :: operand.register?.toList, q.isGeneral → q.code ∈ reserved) :
    (accessThroughScratch op rt base withdrawn operand).NeedsAtMost (n + 2) reserved := by
  refine .scope (.reserve_bind hwithdrawn (.acquire_bind fun temp _ => ?_))
  refine .bind (needsAtMost_addSub .add temp fun q hq general => ?_)
    (produces_addSub .add temp base operand) fun _ => .terminal _
  exact .tail _ (hsources q hq general)

/-- An update of a base register needs at most one temporary. -/
theorem needsAtMost_updateBase {rt base : Register} (hrt : rt.code ∈ reserved)
    (hbase : base.code ∈ reserved) (offset : Int) :
    (updateBase rt base offset).NeedsAtMost (n + 1) reserved :=
  .scope (.reserve_bind (by simp [hrt])
    (needsAtMost_addSub .add base (by simp [Operand.register?, hbase])))

/-- A load or store needs at most two temporaries. -/
theorem needsAtMost_loadStore (op : LoadStoreOp) {rt : Register} {mem : MemOperand}
    (h : ∀ q ∈ rt :: mem.registers, q.code ∈ reserved) :
    (loadStore op rt mem).NeedsAtMost (n + 2) reserved := by
  obtain ⟨hrt, hmem⟩ := List.forall_mem_cons.1 h
  refine .require_bind rfl (.require_bind rfl ?_)
  cases mem with
  | offset base offset =>
    have hbase := hmem base (.head _)
    refine .lift_bind (LoadStore.validated_offsetForm? op rt base offset) fun direct => ?_
    cases direct with
    | some f => exact .terminal f
    | none =>
      exact needsAtMost_accessThroughScratch op (by simp [hbase, hrt])
        (by simp [Operand.register?, hbase])
  | preIndex base offset =>
    have update := needsAtMost_updateBase (n := n + 1) hrt (hmem base (.head _)) offset
    dsimp only
    split
    · exact .terminal _
    · exact .bind update (produces_updateBase rt base offset) fun _ => .terminal _
  | postIndex base offset =>
    have update := needsAtMost_updateBase (n := n + 1) hrt (hmem base (.head _)) offset
    dsimp only
    split
    · exact .terminal _
    · exact .terminal_bind update
  | registerOffset base index extend amount =>
    have hbase := hmem base (.head _)
    have hindex := hmem index (.tail _ (.head _))
    dsimp only
    split
    · exact .terminal _
    · obtain ⟨view, register⟩ : ∃ view,
          (LoadStore.indexOperand index extend amount).register? = some (index.withView view) := by
        rw [LoadStore.indexOperand]
        split
        · exact ⟨.x, rfl⟩
        · exact ⟨index.view, rfl⟩
      refine needsAtMost_accessThroughScratch op (by simp [hbase, hindex, hrt]) ?_
      simp [register, Register.withView, hbase, hindex]

/-! ### Branches and capabilities -/

/-- A branch to a register needs no temporary. -/
theorem needsAtMost_branch (op : BranchOp) (rn : Register) :
    (branch op rn).NeedsAtMost n reserved := by
  refine .get_bind fun s => ?_
  cases s.isa with
  | a64 => exact .require_bind rfl (.terminal _)
  | c64 => exact .require_bind rfl (.terminal _)

/-- A return needs no temporary. -/
theorem needsAtMost_ret : ret.NeedsAtMost n reserved := by
  refine .get_bind fun s => ?_
  cases s.isa with
  | a64 => exact needsAtMost_branch .ret _
  | c64 => exact needsAtMost_branch .ret _

/-- An addition to a capability needs at most one temporary. -/
theorem needsAtMost_capabilityAdd {cd cn : Register} (hcd : cd.code ∈ reserved)
    (hcn : cn.code ∈ reserved) (offset : Int) :
    (capabilityAdd cd cn offset).NeedsAtMost (n + 1) reserved := by
  rw [capabilityAdd]
  split
  · exact .terminal _
  · refine .scope (.reserve_bind (by simp [hcd, hcn]) (.acquire_bind fun temp htemp => ?_))
    exact .bind (needsAtMost_movImmediate_of_isGeneral htemp offset)
      (produces_movImmediate temp offset) fun _ => .terminal _

/-- The capability that is branched through is one scratch register, and the addition that computes
it may need another for the offset. -/
theorem needsAtMost_branchCapability {mem : MemOperand} (h : ∀ q ∈ mem.registers, q.code ∈ reserved)
    (link : Bool) : (branchCapability mem link).NeedsAtMost (n + 2) reserved := by
  refine .get_bind fun s => .require_bind rfl ?_
  cases mem with
  | offset base offset =>
    have hbase := h base (.head _)
    refine .require_bind rfl ?_
    split
    · exact .terminal _
    · refine .scope (.reserve_bind (by simp [hbase]) (.acquire_bind fun temp _ => ?_))
      exact .bind (needsAtMost_capabilityAdd (.head _) (.tail _ hbase) offset)
        (produces_capabilityAdd temp base offset) fun _ => .terminal _
  | _ => exact .throw nofun

end Emit

/-! ## Operations -/

namespace Operation

/-- Operations need at most two scratch registers besides their own registers. -/
theorem needsAtMost_emit (op : Operation) : op.emit.NeedsAtMost 2 (op.registers.map (·.code)) := by
  have own : ∀ q ∈ op.registers, q.code ∈ op.registers.map (·.code) :=
    fun q hq => List.mem_map_of_mem hq
  cases op with
  | addSub op rd rn operand =>
    exact Emit.needsAtMost_addSub op rd fun q hq _ => own q (.tail _ hq)
  | cmp rn operand => exact Emit.needsAtMost_addSub .subs _ fun q hq _ => own q hq
  | cmn rn operand => exact Emit.needsAtMost_addSub .adds _ fun q hq _ => own q hq
  | neg rd operand =>
    refine Emit.needsAtMost_addSub .sub rd (List.forall_mem_cons.2 ⟨?_, fun q hq _ => ?_⟩)
    · -- the zero register is no member of a pool, so that it need not be reserved
      exact fun general => by cases general
    · exact own q (.tail _ hq)
  | logical op invert rd rn operand =>
    exact Emit.needsAtMost_logical op invert rd fun q hq _ => own q (.tail _ hq)
  | tst rn operand => exact Emit.needsAtMost_logical .ands false _ fun q hq _ => own q hq
  | mov rd operand => exact Emit.needsAtMost_mov (Emit.needsAtMost_movImmediate rd) operand
  | loadStore op rt mem => exact Emit.needsAtMost_loadStore op own
  | branch op rn => exact Emit.needsAtMost_branch op rn
  | ret => exact Emit.needsAtMost_ret
  | branchCapability mem link => exact Emit.needsAtMost_branchCapability own link
  | capabilityAdd cd cn offset =>
    exact Emit.needsAtMost_capabilityAdd (own cd (.head _)) (own cn (.tail _ (.head _))) offset

/-- **Two free scratch registers are always enough.** Whatever the arguments of an operation and the
state are, if the pool has two registers that are none of those of the operation, then the operation
does not run out of scratch registers, on any of its ways through other operations.

**Proof sketch.** A pool with a number of free registers has one less after a temporary was taken
out of it, and as many after registers of the operation were withdrawn
(`AArch64.RegisterSet.HasFree.erase`, `AArch64.RegisterSet.HasFree.eraseMany`). So the temporaries
that are held at once are counted along each lowering, where an operation that another one falls
back on has the temporaries of the outer scopes among its own registers
(`AArch64.Operation.needsAtMost_emit`). -/
theorem ne_poolExhausted_of_two_free (op : Operation) (s : Emitter) {a b : Register}
    (ha : s.pool.contains a) (hb : s.pool.contains b) (hab : a.code ≠ b.code)
    (hfree : ∀ q ∈ op.registers, q.code ≠ a.code ∧ q.code ≠ b.code) :
    (op.emit.apply s).1 ≠ .error (.rejected .poolExhausted) :=
  op.needsAtMost_emit s (RegisterSet.hasFree_two ha hb hab (List.forall_mem_map.2 hfree))

/-- A branch through memory, at an offset that no addition of capabilities holds. -/
def farCapabilityBranch : Operation :=
  .branchCapability (.offset ⟨0, .c⟩ 0x123456) false

/-- The branch takes both registers of the pool, so one alone would not have been enough. -/
theorem ne_poolExhausted_farCapabilityBranch :
    (farCapabilityBranch.emit.apply (.new .c64)).1 ≠ .error (.rejected .poolExhausted) ∧
      (farCapabilityBranch.emit.apply (.new .c64)).1 = .ok () ∧
      (farCapabilityBranch.emit.apply
        { Emitter.new .c64 with pool := .ofList [⟨16, .x⟩] }).1 =
          .error (.rejected .poolExhausted) :=
  ⟨ne_poolExhausted_of_two_free _ _ (a := ⟨16, .x⟩) (b := ⟨17, .x⟩) rfl rfl (by decide)
    (List.forall_mem_singleton.2 (by decide)), rfl, rfl⟩

end Operation

end AArch64
