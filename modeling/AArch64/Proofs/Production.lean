import AArch64.Emitter.Operation
import AArch64.Proofs.Emission
import AArch64.Proofs.FormSelection

/-!
# What emissions produce

An emission may stop at any point: in a check, for want of a scratch register, or at a form that is
rejected. Up to that point it has appended the words of some forms and changed the pool. What holds
of the forms and of the pool on every such exit is shown once for each construct, and follows for
every operation from the way in which it is put together.

## Main definitions

* `AArch64.Emit.Produces` — on every exit, the forms have a property and the pool is kept.
* `AArch64.Operation.IsIn` — whether an instruction set has an operation.

## Main results

* `AArch64.Emit.Produces.scope` — after a scope the pool is kept, whatever its body did to it.
* `AArch64.Operation.produces_emit` — operations keep the pool and produce forms of the instruction
  sets that they are in.
* `AArch64.Session.step_operation` — what an operation leaves unchanged, however it ends.
-/

set_option autoImplicit false

namespace AArch64

namespace Emit

/-- From every state, whether the emission returns or faults: the forms that it has emitted have a
property, and if `keeps`, the pool is what it was. -/
def Produces {α : Type} (e : Emit α) (P : Form → Prop) (keeps : Bool) : Prop :=
  ∀ s : Emitter, e.Meets s (fun _ fs p => (∀ f ∈ fs, P f) ∧ (keeps → p = s.pool))
    fun _ fs p => (∀ f ∈ fs, P f) ∧ (keeps → p = s.pool)

namespace Produces

variable {α β : Type} {e : Emit α} {P Q : Form → Prop} {keeps : Bool}

/-- On every exit, the state is the one before with words of such forms appended. -/
theorem exists_emitted (h : e.Produces P true) (s : Emitter) :
    ∃ fs : List Form, (∀ f ∈ fs, f.check = .ok ()) ∧ (∀ f ∈ fs, P f) ∧
      (e.apply s).2 = emitted s fs s.pool := by
  obtain ⟨fs, p, hcheck, hs, h⟩ := h s
  have made : (∀ f ∈ fs, P f) ∧ (true → p = s.pool) := by
    cases hanswer : (e.apply s).1 with
    | ok a =>
      rw [hanswer] at h
      exact h
    | error x =>
      rw [hanswer] at h
      exact h
  obtain ⟨hfs, hp⟩ := made
  exact ⟨fs, hcheck, hfs, hp rfl ▸ hs⟩

/-- What is known of the forms may be weakened. -/
theorem mono (h : e.Produces P keeps) (hPQ : ∀ f, P f → Q f) : e.Produces Q keeps := by
  have weaken : ∀ fs : List Form, (∀ f ∈ fs, P f) → ∀ f ∈ fs, Q f :=
    fun fs hfs f hf => hPQ f (hfs f hf)
  exact fun s => (h s).mono (fun _ fs _ h => ⟨weaken fs h.1, h.2⟩)
    fun _ fs _ h => ⟨weaken fs h.1, h.2⟩

/-- An emission that only answers produces nothing. -/
theorem pure {a : α} : (Pure.pure a : Emit α).Produces P keeps :=
  fun _ => Meets.pure ⟨List.forall_mem_nil _, fun _ => rfl⟩

/-- An emission that only faults produces nothing. -/
theorem throw {x : Fault} : (throw x : Emit α).Produces P keeps :=
  fun _ => Meets.throw ⟨List.forall_mem_nil _, fun _ => rfl⟩

/-- Two emissions, one after the other, produce what either of them does. -/
theorem bind {k : α → Emit β} (h : e.Produces P keeps) (hk : ∀ a, (k a).Produces P keeps) :
    (e >>= k).Produces P keeps := by
  intro s
  refine (h s).bind fun a fs p ⟨hfs, hp⟩ => ?_
  -- the second emission starts with the pool that the first one has left
  have both : ∀ gs q, ((∀ f ∈ gs, P f) ∧ (keeps → q = p)) →
      (∀ f ∈ fs ++ gs, P f) ∧ (keeps → q = s.pool) := by
    rintro gs q ⟨hgs, hq⟩
    exact ⟨List.forall_mem_append.2 ⟨hfs, hgs⟩, fun h => (hq h).trans (hp h)⟩
  exact (hk a (emitted s fs p)).mono (fun _ gs q => both gs q) fun _ gs q => both gs q

/-- A choice goes on with what was chosen. -/
theorem lift_bind {x : Except Fault α} {k : α → Emit β}
    (hk : ∀ a, x = .ok a → (k a).Produces P keeps) : (lift x >>= k).Produces P keeps := by
  cases x with
  | ok a => exact hk a rfl
  | error y => exact throw

/-- A check goes on, or stops without having done anything. -/
theorem require_bind {holds : Bool} {r : Rejection} {k : Unit → Emit β}
    (hk : holds = true → (k ()).Produces P keeps) : (require holds r >>= k).Produces P keeps := by
  cases holds with
  | true => exact hk rfl
  | false => exact throw

/-- What reads the state first produces what it goes on with. -/
theorem get_bind {k : Emitter → Emit α} (h : ∀ s, (k s).Produces P keeps) :
    (get >>= k).Produces P keeps :=
  fun s => Meets.get_bind (h s s)

/-- The emission of a form produces it, if anything. -/
theorem form {f : Form} (h : P f) : (form f).Produces P keeps :=
  fun _ => Meets.form (fun _ => ⟨List.forall_mem_singleton.2 h, fun _ => rfl⟩)
    fun _ _ => ⟨List.forall_mem_nil _, fun _ => rfl⟩

/-- A sequence of forms stops at the first one that is rejected. -/
theorem forM {fs : List Form} (h : ∀ f ∈ fs, P f) : (fs.forM Emit.form).Produces P keeps := by
  induction fs with
  | nil => exact pure
  | cons f fs ih =>
    obtain ⟨hf, hfs⟩ := List.forall_mem_cons.1 h
    exact bind (form hf) fun _ => ih hfs

/-- So does the emission of what has to be one instruction. -/
theorem terminal {f : Form} (h : P f) : (terminal f).Produces P keeps :=
  terminal_eq f ▸ form h

/-- Several forms are produced, or the first of them. -/
theorem forms {fs : List Form} (h : ∀ f ∈ fs, P f) : (forms fs).Produces P keeps :=
  forms_eq fs ▸ forM h

/-- A scope keeps the pool, on whichever exit its body leaves it. -/
theorem scope {body : Emit α} (h : body.Produces P false) : (scope body).Produces P keeps :=
  fun s => Meets.scope ((h s).mono (fun _ _ _ h => ⟨h.1, fun _ => rfl⟩)
    fun _ _ _ h => ⟨h.1, fun _ => rfl⟩)

/-! ## Inside a scope -/

/-- Reserving registers produces nothing. -/
theorem reserve {rs : List Register} : (reserve rs).Produces P false :=
  fun _ => Meets.reserve ⟨List.forall_mem_nil _, fun h => by cases h⟩

/-- Offering registers produces nothing. -/
theorem offer {rs : List Register} : (offer rs).Produces P false :=
  fun _ => Meets.offer ⟨List.forall_mem_nil _, fun h => by cases h⟩

/-- Taking a register produces nothing. -/
theorem acquire {view : RegisterView} : (acquire view).Produces P false :=
  fun _ => Meets.acquire (fun _ _ _ _ => ⟨List.forall_mem_nil _, fun h => by cases h⟩)
    (fun _ => ⟨List.forall_mem_nil _, fun _ => rfl⟩)
    fun _ _ _ => ⟨List.forall_mem_nil _, fun _ => rfl⟩

/-- A scope for an operation produces what its body does, and keeps the pool. -/
theorem scopeFor {rd : Register} {sources : List Register} {body : Emit α}
    (h : body.Produces P false) : (scopeFor rd sources body).Produces P keeps := by
  refine scope (bind reserve fun _ => ?_)
  split
  · exact bind offer fun _ => h
  · exact h

end Produces

end Emit

/-! ## Integer operations -/

/-- Whether every instruction set has a form. -/
def Form.IsCommon (f : Form) : Prop :=
  ∀ isa, f.IsIn isa

namespace Emit

variable {keeps : Bool} {rd rn : Register} {operand : Operand}

/-- The forms for an immediate are in both instruction sets. -/
theorem produces_immediateForms {imm : Int} {fs : List Form}
    (h : Move.immediateForms rd imm = .ok fs) : (forms fs).Produces Form.IsCommon keeps := by
  refine .forms fun f hf isa => ?_
  rcases Move.cases_of_mem_immediateForms h hf with ⟨op, imm16, hw, rfl⟩ | ⟨-, bitmask, rfl⟩
  · trivial
  · trivial

/-- The move of an immediate produces forms of both instruction sets. -/
theorem produces_movImmediate (rd : Register) (imm : Int) :
    (movImmediate rd imm).Produces Form.IsCommon keeps := by
  rw [movImmediate]
  split
  · refine .scope (.bind .acquire fun temp => .lift_bind fun fs hfs => ?_)
    exact .bind (produces_immediateForms hfs) fun _ => .terminal fun _ => trivial
  · exact .lift_bind fun fs hfs => produces_immediateForms hfs

/-- So does every move. -/
theorem produces_mov (rd : Register) (operand : Operand) :
    (mov rd operand).Produces Form.IsCommon keeps := by
  cases operand with
  | immediate imm => exact produces_movImmediate rd imm
  | register rm =>
    rw [mov]
    split
    · exact produces_movImmediate rd 0
    · refine .terminal fun isa => ?_
      rw [Move.registerForm]
      split <;> trivial
  | shifted rn shift amount =>
    refine .lift_bind fun f hf => .terminal fun isa => ?_
    obtain ⟨-, -, ⟨op, immr, imms, rfl⟩ | ⟨-, rfl⟩⟩ := Move.cases_of_shiftForm hf
    · trivial
    · trivial
  | extended rn extend amount =>
    refine .lift_bind fun f hf => .terminal fun isa => ?_
    obtain ⟨-, -, op, immr, imms, rfl⟩ := Move.exists_of_extendForm hf
    trivial

/-- The form that adds a register is in both instruction sets. -/
theorem isCommon_of_registerForm? {op : AddSubOp} {f : Form}
    (h : AddSub.registerForm? op rd rn operand = some f) : f.IsCommon := by
  intro isa
  obtain ⟨rm, -, ⟨shift, amount, rfl⟩ | ⟨extend, amount, rfl⟩⟩ := AddSub.cases_of_registerForm? h
  · trivial
  · trivial

/-- So is the form that adds any operand. -/
theorem isCommon_of_directForm? {op : AddSubOp} {f : Form}
    (h : AddSub.directForm? op rd rn operand = .ok (some f)) : f.IsCommon := by
  cases operand with
  | immediate imm =>
    obtain ⟨-, op', imm12, shifted, -, rfl⟩ := AddSub.exists_of_immediateForm? h
    exact fun _ => trivial
  | _ => exact isCommon_of_registerForm? (Except.ok.inj h)

/-- Additions and subtractions produce forms of both instruction sets. -/
theorem produces_addSub (op : AddSubOp) (rd rn : Register) (operand : Operand) :
    (addSub op rd rn operand).Produces Form.IsCommon keeps := by
  refine .require_bind fun _ => .require_bind fun _ => .require_bind fun _ =>
    .lift_bind fun direct hdirect => ?_
  cases direct with
  | some f => exact .terminal (isCommon_of_directForm? hdirect)
  | none =>
    refine .scopeFor (.bind .acquire fun temp => .bind (produces_mov temp operand) fun _ => ?_)
    split
    · next f hf => exact .terminal (isCommon_of_registerForm? hf)
    · exact .throw

/-- A copy of the stack pointer into a scratch register produces forms of both instruction sets. -/
theorem produces_outOfStack (rn : Register) : (outOfStack rn).Produces Form.IsCommon false := by
  rw [outOfStack]
  split
  · exact .bind .acquire fun copy => .bind (produces_mov copy _) fun _ => .pure
  · exact .pure

/-- Combinations produce forms of both instruction sets. -/
theorem produces_logical (op : LogicalOp) (invert : Bool) (rd rn : Register) (operand : Operand) :
    (logical op invert rd rn operand).Produces Form.IsCommon keeps := by
  refine .require_bind fun _ => .require_bind fun _ => .lift_bind fun direct hdirect => ?_
  cases direct with
  | some f =>
    refine .terminal fun isa => ?_
    obtain ⟨bitmask, rfl⟩ | ⟨rm, shift, amount, -, rfl⟩ := Logical.cases_of_directForm? hdirect
    · trivial
    · trivial
  | none =>
    refine .scopeFor (.bind .acquire fun temp => .bind (produces_mov temp operand) fun _ => ?_)
    refine .bind (produces_outOfStack rn) fun copy => ?_
    split
    · exact .bind (.terminal fun _ => trivial) fun _ => produces_mov rd _
    · exact .terminal fun _ => trivial

/-- An access through a scratch register produces forms of both instruction sets. -/
theorem produces_accessThroughScratch (op : LoadStoreOp) (rt base : Register)
    (reserved : List Register) (operand : Operand) :
    (accessThroughScratch op rt base reserved operand).Produces Form.IsCommon keeps :=
  .scope (.bind .reserve fun _ => .bind .acquire fun temp =>
    .bind (produces_addSub .add temp base operand) fun _ => .terminal fun _ => trivial)

/-- The update of a base produces forms of both instruction sets. -/
theorem produces_updateBase (rt base : Register) (offset : Int) :
    (updateBase rt base offset).Produces Form.IsCommon keeps :=
  .scope (.bind .reserve fun _ => produces_addSub .add base base _)

/-- Loads and stores produce forms of both instruction sets. -/
theorem produces_loadStore (op : LoadStoreOp) (rt : Register) (mem : MemOperand) :
    (loadStore op rt mem).Produces Form.IsCommon keeps := by
  have access : ∀ base, (terminal (.loadStoreUnsigned op rt base 0)).Produces Form.IsCommon keeps :=
    fun base => .terminal fun _ => trivial
  refine .require_bind fun _ => .require_bind fun _ => ?_
  cases mem with
  | offset base offset =>
    refine .lift_bind fun direct hdirect => ?_
    cases direct with
    | some f =>
      refine .terminal fun isa => ?_
      rcases LoadStore.cases_of_offsetForm? hdirect with rfl | ⟨-, rfl⟩
      · trivial
      · trivial
    | none => exact produces_accessThroughScratch op rt base _ _
  | preIndex base offset =>
    dsimp only
    split
    · next f hf =>
      obtain ⟨-, rfl⟩ := LoadStore.eq_of_indexedForm? hf
      exact .terminal fun _ => trivial
    · exact .bind (produces_updateBase rt base offset) fun _ => access base
  | postIndex base offset =>
    dsimp only
    split
    · next f hf =>
      obtain ⟨-, rfl⟩ := LoadStore.eq_of_indexedForm? hf
      exact .terminal fun _ => trivial
    · exact .bind (access base) fun _ => produces_updateBase rt base offset
  | registerOffset base index extend amount =>
    dsimp only
    split
    · next f hf =>
      obtain ⟨-, -, rfl⟩ := LoadStore.eq_of_registerForm? hf
      exact .terminal fun _ => trivial
    · exact produces_accessThroughScratch op rt base _ _

/-- Branches produce forms of both instruction sets. -/
theorem produces_branch (op : BranchOp) (rn : Register) :
    (branch op rn).Produces Form.IsCommon keeps := by
  refine .get_bind fun s => ?_
  cases s.isa with
  | a64 => exact .require_bind fun _ => .terminal fun _ => trivial
  | c64 => exact .require_bind fun _ => .terminal fun _ => trivial

/-- So does a return. -/
theorem produces_ret : ret.Produces Form.IsCommon keeps := by
  refine .get_bind fun s => ?_
  cases s.isa with
  | a64 => exact produces_branch .ret _
  | c64 => exact produces_branch .ret _

/-! ## Capability operations -/

/-- The addition to a capability produces forms of C64. -/
theorem produces_capabilityAdd (cd cn : Register) (offset : Int) :
    (capabilityAdd cd cn offset).Produces (·.IsIn .c64) keeps := by
  rw [capabilityAdd]
  split
  · exact .terminal rfl
  · refine .scope (.bind .reserve fun _ => .bind .acquire fun temp => ?_)
    exact .bind ((produces_movImmediate temp offset).mono fun _ h => h .c64) fun _ => .terminal rfl

/-- Branches through memory produce forms of C64. -/
theorem produces_branchCapability (mem : MemOperand) (link : Bool) :
    (branchCapability mem link).Produces (·.IsIn .c64) keeps := by
  refine .get_bind fun s => .require_bind fun _ => ?_
  cases mem with
  | offset base offset =>
    refine .require_bind fun _ => ?_
    split
    · exact .terminal rfl
    · refine .scope (.bind .reserve fun _ => .bind .acquire fun temp => ?_)
      exact .bind (produces_capabilityAdd temp base offset) fun _ => .terminal rfl
  | _ => exact .throw

end Emit

/-! ## Operations -/

namespace Operation

/-- Whether an instruction set has an operation: operations on capabilities are those of the
capability state. -/
def IsIn (op : Operation) (isa : Isa) : Prop :=
  match op with
  | .branchCapability .. | .capabilityAdd .. => isa = .c64
  | _ => True

/-- Operations keep the pool, and produce forms of the instruction sets that they are in. -/
theorem produces_emit (op : Operation) :
    op.emit.Produces (fun f => ∀ isa, op.IsIn isa → f.IsIn isa) true := by
  have common : ∀ {e : Emit Unit}, e.Produces Form.IsCommon true →
      e.Produces (fun f => ∀ isa, op.IsIn isa → f.IsIn isa) true :=
    fun h => h.mono fun _ hf isa _ => hf isa
  cases op with
  | addSub op rd rn operand => exact common (Emit.produces_addSub op rd rn operand)
  | cmp rn operand => exact common (Emit.produces_addSub .subs _ rn operand)
  | cmn rn operand => exact common (Emit.produces_addSub .adds _ rn operand)
  | neg rd operand => exact common (Emit.produces_addSub .sub rd _ operand)
  | logical op invert rd rn operand =>
    exact common (Emit.produces_logical op invert rd rn operand)
  | tst rn operand => exact common (Emit.produces_logical .ands false _ rn operand)
  | mov rd operand => exact common (Emit.produces_mov rd operand)
  | loadStore op rt mem => exact common (Emit.produces_loadStore op rt mem)
  | branch op rn => exact common (Emit.produces_branch op rn)
  | ret => exact common Emit.produces_ret
  | branchCapability mem link =>
    refine (Emit.produces_branchCapability mem link).mono fun f hf isa hisa => ?_
    obtain rfl : isa = .c64 := hisa
    exact hf
  | capabilityAdd cd cn offset =>
    refine (Emit.produces_capabilityAdd cd cn offset).mono fun f hf isa hisa => ?_
    obtain rfl : isa = .c64 := hisa
    exact hf

end Operation

namespace Session

/-- **Operations keep the pool on every exit.** Whatever the arguments, the state and the open
scopes are, and whether the operation returns or faults at some point: afterwards the pool, the
instruction set and the pools of the open scopes are what they were, and words were appended to the
code, if anything.

**Proof sketch.** Every lowering changes the pool inside a scope only, and a scope ends with the
pool that it began with, also when its body faults (`AArch64.Emit.Produces.scope`). Everything else
that a lowering does is emitting forms, which appends words
(`AArch64.Operation.produces_emit`). -/
theorem step_operation (s : Session) (op : Operation) :
    ∃ ws : List Word, (s.step (.operation op)).2 =
      { s with emitter :=
        { s.emitter with code := { words := s.emitter.code.words ++ ws.toArray } } } := by
  obtain ⟨fs, -, -, hs⟩ := op.produces_emit.exists_emitted s.emitter
  refine ⟨fs.map Form.word, ?_⟩
  show { s with emitter := (op.emit.apply s.emitter).2 } = _
  rw [hs]
  rfl

end Session

end AArch64
