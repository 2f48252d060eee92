import AArch64.Interchange
import AArch64.Proofs.OperationFrame
import AArch64.Proofs.Scopes

/-!
# Where registers come from

A register is built by number, as the zero register or as the stack pointer. It can be seen in
another view, taken out of a pool, or read from a document: as a register, or as part of an operand.
A set of registers is listed, changed register by register, taken over from a pool, or read from a
document. Pools in turn are what a session makes of the sets that it is given.

What is built is a register in the sense of `Register.IsBuilt`, whatever the number, and no change
of a set adds number 31 to it. Documents are not looked at in this way: every code and every set of
bits can be read. So what can be obtained is sound exactly if the documents are.

```text
code 40, view x      not in the table of codes, has field 8 as x8 has, and is not x8 for a set
bits 2 ^ 31          is not empty, and has no register that could be acquired
```

## Main definitions

* `AArch64.Register.Obtained`, `AArch64.RegisterSet.Obtained`, `AArch64.Session.Obtained` — what can
  be obtained, given the documents that are read.
* `AArch64.Document.Holds` — a register is read from a document, alone or in an operand.
* `AArch64.Document.IsSound` — a document that holds registers as they are built only.

## Main results

* `AArch64.Session.IsProper.step` — every step keeps the pools proper.
* `AArch64.Document.sound_iff_obtained` — the documents are sound exactly if all that can be
  obtained is.
-/

set_option autoImplicit false

namespace AArch64

/-! ## What can be obtained -/

mutual

/-- The sets of registers that can be obtained. Those that are listed, inserted or erased may be any
registers at all. -/
inductive RegisterSet.Obtained (documents : Document → Prop) : RegisterSet → Prop
  /-- A list of registers. -/
  | ofList (rs : List Register) : RegisterSet.Obtained documents (.ofList rs)
  /-- A register is added. -/
  | insert {s : RegisterSet} (r : Register) : RegisterSet.Obtained documents s →
      RegisterSet.Obtained documents (s.insert r)
  /-- A register is taken out. -/
  | erase {s : RegisterSet} (r : Register) : RegisterSet.Obtained documents s →
      RegisterSet.Obtained documents (s.erase r)
  /-- The pool of a session. -/
  | pool {t : Session} : Session.Obtained documents t →
      RegisterSet.Obtained documents t.emitter.pool
  /-- A document of a set. -/
  | read {d : Document} {s : RegisterSet} : documents d → Interchange.read d = some s →
      RegisterSet.Obtained documents s

/-- The sessions that can be reached, whatever steps of them have faulted. -/
inductive Session.Obtained (documents : Document → Prop) : Session → Prop
  /-- A new session. -/
  | new (isa : Isa) : Session.Obtained documents (.new isa)
  /-- The pool is replaced by a set that can be obtained. -/
  | setPool {t : Session} {pool : RegisterSet} : Session.Obtained documents t →
      RegisterSet.Obtained documents pool → Session.Obtained documents (t.step (.setPool pool)).2
  /-- Any other step. -/
  | step {t : Session} {action : Action} : Session.Obtained documents t →
      (∀ pool, action ≠ .setPool pool) → Session.Obtained documents (t.step action).2

end

/-- A register is read from a document, as it is or as part of an operand. -/
def Document.Holds (d : Document) (r : Register) : Prop :=
  Interchange.read d = some r ∨
    (∃ o : Operand, Interchange.read d = some o ∧ o.register? = some r) ∨
    ∃ m : MemOperand, Interchange.read d = some m ∧ r ∈ m.registers

/-- The registers that can be obtained. -/
inductive Register.Obtained (documents : Document → Prop) : Register → Prop
  /-- A general-purpose register. -/
  | general {n : Nat} {view : RegisterView} {r : Register} : Register.general? n view = some r →
      Register.Obtained documents r
  /-- The zero register. -/
  | zero (view : RegisterView) : Register.Obtained documents (.zero view)
  /-- The stack pointer. -/
  | stack (view : RegisterView) : Register.Obtained documents (.stack view)
  /-- Another view. -/
  | withView {r : Register} (view : RegisterView) : Register.Obtained documents r →
      Register.Obtained documents (r.withView view)
  /-- An acquisition from the pool of a session. -/
  | acquire {t : Session} {view : RegisterView} {r : Register} : Session.Obtained documents t →
      (t.step (.acquire view)).1 = .ok (.register r) → Register.Obtained documents r
  /-- A document with a register. -/
  | read {d : Document} {r : Register} : documents d → d.Holds r → Register.Obtained documents r

/-- What can be read from a document is sound: the registers are registers as they are built, and
the sets have general-purpose registers only. -/
structure Document.IsSound (d : Document) : Prop where
  register : ∀ r, d.Holds r → r.IsBuilt
  set : ∀ s : RegisterSet, Interchange.read d = some s → s.IsProper

/-! ## Documents that were written -/

namespace Document

/-- What was written from a register as it is built is sound. -/
theorem isSound_write_register {r : Register} (h : r.IsBuilt) :
    (Interchange.write r).IsSound where
  register q hq := by
    rcases hq with hq | ⟨o, ho, -⟩ | ⟨m, hm, -⟩
    · rw [r.read_write] at hq
      exact Option.some.inj hq ▸ h
    · cases ho
    · cases hm
  set s hs := by cases hs

/-- So is what was written from a proper set. -/
theorem isSound_write_set {s : RegisterSet} (h : s.IsProper) : (Interchange.write s).IsSound where
  register q hq := by
    rcases hq with hq | ⟨o, ho, -⟩ | ⟨m, hm, -⟩
    · cases hq
    · cases ho
    · cases hm
  set t ht := by
    rw [s.read_write] at ht
    exact Option.some.inj ht ▸ h

end Document

/-! ## Registers as they are built -/

namespace Register

variable {q r : Register}

/-- Registers with the same field have the same code, or are the zero register and the stack
pointer. -/
theorem IsBuilt.code_eq_or_of_field_eq (hq : q.IsBuilt) (hr : r.IsBuilt)
    (h : q.field = r.field) :
    q.code = r.code ∨ q.isZero ∧ r.isStack ∨ q.isStack ∧ r.isZero := by
  have number : q.number = r.number := by rw [← hq.toNat_field, ← hr.toNat_field, h]
  by_cases general : q.isGeneral
  · have general' : r.isGeneral := by
      rwa [isGeneral_iff_number_lt, ← number, ← isGeneral_iff_number_lt]
    rw [Register.number, Register.number, if_pos general, if_pos general'] at number
    exact .inl (BitVec.eq_of_toNat_eq number)
  · have general' : ¬ r.isGeneral := by
      rwa [isGeneral_iff_number_lt, ← number, ← isGeneral_iff_number_lt]
    rcases hq.isZero_or_isStack general with zero | stack <;>
      rcases hr.isZero_or_isStack general' with zero' | stack'
    · exact .inl ((of_decide_eq_true zero).trans (of_decide_eq_true zero').symm)
    · exact .inr (.inl ⟨zero, stack'⟩)
    · exact .inr (.inr ⟨stack, zero'⟩)
    · exact .inl ((of_decide_eq_true stack).trans (of_decide_eq_true stack').symm)

end Register

/-! ## Pools of sessions -/

namespace Session

/-- Whether the pool and the pools that will be put back have general-purpose registers only. -/
structure IsProper (t : Session) : Prop where
  pool : t.emitter.pool.IsProper
  saved : ∀ pool ∈ t.saved, pool.IsProper

variable {t t' : Session}

/-- A new session has proper pools. -/
theorem isProper_new (isa : Isa) : (new isa).IsProper where
  pool := RegisterSet.isProper_ofList _
  saved := List.forall_mem_nil _

namespace IsProper

/-- The pool may change to another proper one. -/
theorem of_pool (h : t.IsProper) (hsaved : t'.saved = t.saved)
    (hpool : t'.emitter.pool.IsProper) : t'.IsProper where
  pool := hpool
  saved := hsaved ▸ h.saved

/-- To open a scope saves the pool, which is proper. -/
theorem openScope (h : t.IsProper) : t.openScope.IsProper where
  pool := h.pool
  saved := List.forall_mem_cons.2 ⟨h.pool, h.saved⟩

/-- To close a scope puts back a pool that was saved. -/
theorem closeScope (h : t.IsProper) : t.closeScope.IsProper := by
  obtain ⟨emitter, saved⟩ := t
  cases saved with
  | nil => exact h
  | cons pool saved =>
    obtain ⟨hpool, hsaved⟩ := List.forall_mem_cons.1 h.saved
    exact ⟨hpool, hsaved⟩

/-- To take a register leaves a proper pool. -/
theorem acquire (h : t.IsProper) (view : RegisterView) : (t.step (.acquire view)).2.IsProper := by
  by_cases hempty : t.emitter.pool = .empty
  · rwa [step_acquire_of_empty hempty]
  · obtain ⟨r, -, -, -, acquired⟩ := exists_step_acquire h.pool hempty view
    rw [acquired]
    exact h.of_pool rfl (h.pool.erase r)

/-- To give a register back leaves a proper pool. -/
theorem release (h : t.IsProper) (r : Register) : (t.step (.release r)).2.IsProper := by
  cases hcontains : t.emitter.pool.contains r with
  | true => rwa [step_release_of_contains hcontains]
  | false =>
    rw [step_release_of_not_contains hcontains]
    exact h.of_pool rfl (h.pool.insert r)

/-- **Every step keeps the pools proper**, also one that faults, if a pool that is set is proper. -/
theorem step (h : t.IsProper) {action : Action}
    (hset : ∀ pool, action = .setPool pool → pool.IsProper) : (t.step action).2.IsProper := by
  cases action with
  | operation op => exact h.of_pool rfl (t.pool_step_operation op ▸ h.pool)
  | form f => exact h.of_pool rfl (t.pool_step_form f ▸ h.pool)
  | word w => exact h.of_pool rfl h.pool
  | setIsa isa => exact h.of_pool rfl h.pool
  | setPool pool => exact h.of_pool rfl (hset pool rfl)
  | openScope => exact h.openScope
  | closeScope => exact h.closeScope
  | acquire view => exact h.acquire view
  | release r => exact h.release r
  | offer rs =>
    rw [step_offer]
    exact h.of_pool rfl (h.pool.insertMany rs)
  | reserve rs =>
    rw [step_reserve]
    exact h.of_pool rfl (h.pool.eraseMany rs)
  | available => exact h
  | isAvailable r => exact h

end IsProper

end Session

/-! ## What sound documents lead to -/

section Sound

variable {documents : Document → Prop}

mutual

/-- With sound documents, the sets that can be obtained are proper. -/
theorem RegisterSet.Obtained.isProper (hdocuments : ∀ d, documents d → d.IsSound)
    {s : RegisterSet} : RegisterSet.Obtained documents s → s.IsProper
  | .ofList rs => RegisterSet.isProper_ofList rs
  | .insert r h => (h.isProper hdocuments).insert r
  | .erase r h => (h.isProper hdocuments).erase r
  | .pool h => (h.isProper hdocuments).pool
  | .read hd h => (hdocuments _ hd).set s h

/-- So are the pools of the sessions that can be reached. -/
theorem Session.Obtained.isProper (hdocuments : ∀ d, documents d → d.IsSound)
    {t : Session} : Session.Obtained documents t → t.IsProper
  | .new isa => Session.isProper_new isa
  | .setPool h hpool => (h.isProper hdocuments).step fun _ eq => by
      cases eq
      exact hpool.isProper hdocuments
  | .step h hother => (h.isProper hdocuments).step fun pool eq => absurd eq (hother pool)

end

/-- What is acquired is a general-purpose register, whatever the pool. -/
theorem Session.isBuilt_of_step_acquire {t : Session} {view : RegisterView} {r : Register}
    (h : (t.step (.acquire view)).1 = .ok (.register r)) : r.IsBuilt := by
  simp only [step, run, Emit.apply_acquire] at h
  split at h
  · cases h
  · split at h
    · cases h
    · next n first q general =>
      cases h
      exact Register.isBuilt_of_general? general

/-- With sound documents, the registers that can be obtained are registers as they are built. -/
theorem Register.Obtained.isBuilt (hdocuments : ∀ d, documents d → d.IsSound) {r : Register}
    (h : Register.Obtained documents r) : r.IsBuilt := by
  induction h with
  | general h => exact isBuilt_of_general? h
  | zero view => exact isBuilt_zero view
  | stack view => exact isBuilt_stack view
  | withView view _ ih => exact ih.withView view
  | acquire _ h => exact Session.isBuilt_of_step_acquire h
  | read hd h => exact (hdocuments _ hd).register _ h

/-- **The documents are sound exactly if all that can be obtained is.** That is, every register has
one of the codes of the table, and shares its field with the same register only, or as the zero
register with the stack pointer; no set has number 31, and a pool that is not empty always has a
general-purpose register to acquire.

**Proof sketch.** What is built is sound. The changes of a set keep number 31 out of it
(`RegisterSet.IsProper.insert`, `.erase`), hence the steps of a session keep the pool and the pools
that will be put back proper (`Session.IsProper.step`). Sets and sessions are obtained from each
other, so this is one induction over both. Conversely, what a document holds can be obtained. -/
theorem Document.sound_iff_obtained (documents : Document → Prop) :
    (∀ d, documents d → d.IsSound) ↔
      (∀ r, Register.Obtained documents r → r.IsBuilt) ∧
      (∀ q r, Register.Obtained documents q → Register.Obtained documents r →
        q.field = r.field → q.code = r.code ∨ q.isZero ∧ r.isStack ∨ q.isStack ∧ r.isZero) ∧
      (∀ s, RegisterSet.Obtained documents s → s.IsProper) ∧
      ∀ t view, Session.Obtained documents t → t.emitter.pool ≠ .empty →
        ∃ r : Register, r.isGeneral ∧ r.view = view ∧
          (t.step (.acquire view)).1 = .ok (.register r) := by
  constructor
  · intro hdocuments
    refine ⟨fun r hr => hr.isBuilt hdocuments, fun q r hq hr => ?_,
      fun s hs => hs.isProper hdocuments, fun t view ht hne => ?_⟩
    · exact (hq.isBuilt hdocuments).code_eq_or_of_field_eq (hr.isBuilt hdocuments)
    · obtain ⟨r, hview, member, -, acquired⟩ :=
        Session.exists_step_acquire (ht.isProper hdocuments).pool hne view
      exact ⟨r, RegisterSet.isGeneral_of_contains member, hview, congrArg Prod.fst acquired⟩
  · rintro ⟨registers, -, sets, -⟩ d hd
    exact ⟨fun r hr => registers r (.read hd hr), fun s hs => sets s (.read hd hs)⟩

/-- A code outside of the table of codes. -/
def foreignRegister : Document :=
  .record [("code", .whole 40), ("size", .text "X")]

/-- A set of number 31 only. -/
def foreignSet : Document :=
  .whole (2 ^ 31)

/-- Documents need not be sound. The first one gives a register with the field of `x8`, whose
withdrawal leaves `x8` available. The second one gives a pool that is not empty, and from which
nothing can be acquired. -/
theorem Document.obtained_foreign :
    Register.Obtained (· = foreignRegister) ⟨40, .x⟩ ∧ ¬ Register.IsBuilt ⟨40, .x⟩ ∧
      Register.field ⟨40, .x⟩ = Register.field ⟨8, .x⟩ ∧
      ((RegisterSet.ofList [⟨8, .x⟩]).erase ⟨40, .x⟩).contains ⟨8, .x⟩ ∧
      ∃ s t, RegisterSet.Obtained (· = foreignSet) s ∧ ¬ s.IsProper ∧
        Session.Obtained (· = foreignSet) t ∧ t.emitter.pool = s ∧ s ≠ .empty ∧
        (t.step (.acquire .x)).1 = .error (.rejected .registerNumber) := by
  have read : RegisterSet.Obtained (· = foreignSet) ⟨.twoPow 32 31⟩ := .read rfl (by decide +kernel)
  refine ⟨.read rfl (.inl (by decide +kernel)), ?_, by decide, by decide, _, _, read, by decide,
    .setPool (.new .a64) read, rfl, by decide, by decide⟩
  intro built
  have := built.code_cases
  revert this
  decide

end Sound

end AArch64
