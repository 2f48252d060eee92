import AArch64.Proofs.Effects
import AArch64.Proofs.Emission

/-!
# Emissions in a frame

An emission may write some registers: its destinations, and registers of the pool that it starts
with, except those that it reads. It may fall back on other emissions, in scopes that withdraw what
it reads from the pool. What it may write is stated for the pool at its own start, so the pool of an
inner scope holds only what may be written.

## Main definitions

* `AArch64.MayWrite` — the destinations, and the pool without the sources.
* `AArch64.Form.Within` — a form writes only what is allowed.
* `AArch64.Emit.Frames` — an emission writes only what is allowed.

## Main results

* `AArch64.Emit.Meets.scopeFor` — a scope for a destination and its sources.
* `AArch64.Emit.Frames.bind` — an emission followed by another.
-/

set_option autoImplicit false

namespace AArch64

/-! ## What may be written -/

/-- What may be written: destinations, and registers of a pool that are no sources. -/
def MayWrite (destinations sources : List Register) (pool : RegisterSet) (r : Register) : Prop :=
  (∃ d ∈ destinations, d.code = r.code) ∨ (pool.contains r ∧ ∀ q ∈ sources, q.code ≠ r.code)

namespace MayWrite

variable {destinations sources : List Register} {pool : RegisterSet} {d q r : Register}

/-- A destination may be written. -/
theorem of_mem (h : d ∈ destinations) : MayWrite destinations sources pool d :=
  .inl ⟨d, h, rfl⟩

/-- Only the code of a register matters. -/
theorem congr (h : MayWrite destinations sources pool q) (hcode : q.code = r.code) :
    MayWrite destinations sources pool r := by
  rw [MayWrite, hcode, pool.contains_congr hcode] at h
  exact h

/-- More may be written if the destinations and the rest of the pool may be. -/
theorem mono {destinations' sources' : List Register} {pool' : RegisterSet}
    (hd : ∀ d ∈ destinations, d.isZero = false → MayWrite destinations' sources' pool' d)
    (hpool : ∀ r, pool.contains r → (∀ q ∈ sources, q.code ≠ r.code) →
      MayWrite destinations' sources' pool' r) (hr : r.isZero = false)
    (h : MayWrite destinations sources pool r) : MayWrite destinations' sources' pool' r := by
  rcases h with ⟨d, hmem, hcode⟩ | ⟨hmem, hsources⟩
  · refine (hd d hmem ?_).congr hcode
    rw [Register.isZero, hcode]
    exact hr
  · exact hpool r hmem hsources

/-- The pool may be written once the sources are withdrawn. -/
theorem of_contains_eraseMany {reserved : List Register} (hsources : ∀ q ∈ sources, q ∈ reserved)
    (h : (pool.eraseMany reserved).contains r) : MayWrite destinations sources pool r := by
  obtain ⟨member, other⟩ := RegisterSet.contains_eraseMany_iff.1 h
  exact .inr ⟨member, fun q hq => other q (hsources q hq)⟩

/-- An emission for a scratch register may write only the pool that the register was taken from. -/
theorem contains_of_scratch (hd : pool.contains d) (h : MayWrite [d] sources (pool.erase d) r) :
    pool.contains r := by
  rcases h with ⟨q, hq, hcode⟩ | ⟨hr, -⟩
  · obtain rfl := List.mem_singleton.1 hq
    rw [← pool.contains_congr hcode]
    exact hd
  · exact RegisterSet.contains_of_contains_erase hr

end MayWrite

namespace Form

/-- A form with registers as they are built that writes only some registers, and the flags only if
allowed. -/
structure Within (allowed : Register → Prop) (flags : Bool) (f : Form) : Prop where
  /-- The registers are built. -/
  isBuilt : ∀ r ∈ f.registers, r.IsBuilt
  /-- What is written is allowed. -/
  allowed : ∀ r ∈ f.written, r.isZero = false → allowed r
  /-- The flags are written only if allowed. -/
  flags : f.setsFlags → flags

variable {A B : Register → Prop} {flags : Bool} {f : Form} {rd : Register}

/-- A form within some bounds is within wider ones. -/
theorem Within.mono {flags' : Bool} (h : f.Within A flags)
    (hA : ∀ r, r.isZero = false → A r → B r) (hflags : flags → flags') : f.Within B flags' where
  isBuilt := h.isBuilt
  allowed r hr hzero := hA r hzero (h.allowed r hr hzero)
  flags hf := hflags (h.flags hf)

/-- A form with one destination. -/
theorem within_of_written (hbuilt : ∀ r ∈ f.registers, r.IsBuilt) (hf : f.written = [rd])
    (hrd : A rd) (hflags : f.setsFlags → flags) : f.Within A flags where
  isBuilt := hbuilt
  allowed r hr _ := by
    rw [hf] at hr
    exact List.mem_singleton.1 hr ▸ hrd
  flags := hflags

/-- A form with one destination that leaves the flags alone. -/
theorem within_of_keeps_flags (hbuilt : ∀ r ∈ f.registers, r.IsBuilt) (hf : f.written = [rd])
    (hrd : A rd) (hflags : f.setsFlags = false) : f.Within A flags :=
  within_of_written hbuilt hf hrd fun h => absurd (hflags.symm.trans h) Bool.false_ne_true

end Form

/-! ## Emissions in a frame -/

namespace Emit

namespace Meets

variable {α : Type} {s : Emitter} {Q : α → List Form → RegisterSet → Prop}

/-- A scratch register is a general-purpose register of the pool. -/
theorem acquire_general_bind {view : RegisterView} {k : Register → Emit α}
    (hk : ∀ temp, temp.IsBuilt → temp.isGeneral → s.pool.contains temp → temp.view = view →
      (k temp).Meets (emitted s [] (s.pool.erase temp)) Q fun _ _ _ => True) :
    (Emit.acquire view >>= k).Meets s Q fun _ _ _ => True := by
  refine acquire_bind (fun n temp hn htemp => ?_) (fun _ => trivial) fun _ _ _ => trivial
  obtain ⟨hcode, hlt, hview⟩ := Register.code_of_general? htemp
  exact hk temp (Register.isBuilt_of_general? htemp) (temp.isGeneral_iff.2 (by omega))
    (RegisterSet.contains_of_first? hn htemp) hview

/-- In a scope for a destination and its sources, the pool holds the destination and registers of
the pool, and no source. The pool is what it was afterwards. -/
theorem scopeFor {rd : Register} {sources : List Register} {body : Emit α}
    (h : ∀ p : RegisterSet, (∀ r, p.contains r → MayWrite [rd] sources s.pool r ∧
        ∀ q ∈ sources, q.code ≠ r.code) →
      body.Meets (emitted s [] p) (fun a fs _ => Q a fs s.pool) fun _ _ _ => True) :
    (Emit.scopeFor rd sources body).Meets s Q fun _ _ _ => True := by
  have rest : ∀ r, (s.pool.eraseMany sources).contains r →
      MayWrite [rd] sources s.pool r ∧ ∀ q ∈ sources, q.code ≠ r.code := fun r hr =>
    ⟨.of_contains_eraseMany (fun q hq => hq) hr, (RegisterSet.contains_eraseMany_iff.1 hr).2⟩
  refine scope (reserve_bind ?_)
  split
  · next other =>
    refine offer_bind (h _ fun r hr => ?_)
    have inserted : ((s.pool.eraseMany sources).insert rd).contains r := hr
    rw [RegisterSet.contains_insert, Bool.or_eq_true, Bool.and_eq_true] at inserted
    rcases inserted with hr | ⟨-, hr⟩
    · exact rest r hr
    · have code : r.code = rd.code := of_decide_eq_true hr
      refine ⟨.inl ⟨rd, .head _, code.symm⟩, fun q hq => ?_⟩
      rw [code]
      exact of_decide_eq_true (List.all_eq_true.1 other q hq)
  · exact h _ rest

end Meets

/-- Whenever an emission returns, its forms write only what is allowed, and its answer and the pool
have a property. -/
def Frames {α : Type} (e : Emit α) (s : Emitter) (allowed : Register → Prop) (flags : Bool)
    (Q : α → RegisterSet → Prop) : Prop :=
  e.Meets s (fun a fs p => (∀ f ∈ fs, f.Within allowed flags) ∧ Q a p) fun _ _ _ => True

namespace Frames

variable {α β : Type} {e : Emit α} {s : Emitter} {A B : Register → Prop} {flags : Bool}
  {P Q : α → RegisterSet → Prop}

/-- An emission within some bounds is within wider ones. -/
theorem mono {flags' : Bool} (h : e.Frames s A flags P) (hA : ∀ r, r.isZero = false → A r → B r)
    (hflags : flags → flags') (hQ : ∀ a p, P a p → Q a p) : e.Frames s B flags' Q := by
  refine Meets.mono h ?_ fun _ _ _ _ => trivial
  rintro a fs p ⟨hfs, ha⟩
  exact ⟨fun f hf => (hfs f hf).mono hA hflags, hQ a p ha⟩

/-- In a scope, what is known of the answer and the pool may be forgotten. -/
theorem forget (h : e.Frames s A flags P) : e.Frames s A flags fun _ _ => True :=
  h.mono (fun _ _ hr => hr) id fun _ _ _ => trivial

/-- An emission for a scratch register writes only the pool that the register was taken from. -/
theorem of_scratch {flags' : Bool} {temp : Register} {sources : List Register} {pool : RegisterSet}
    (h : e.Frames (emitted s [] (pool.erase temp))
      (MayWrite [temp] sources (emitted s [] (pool.erase temp)).pool) flags P)
    (htemp : pool.contains temp) (hpool : ∀ r, pool.contains r → A r) (hflags : flags → flags') :
    e.Frames (emitted s [] (pool.erase temp)) A flags' P :=
  h.mono (fun r _ hr => hpool r (hr.contains_of_scratch htemp)) hflags fun _ _ h => h

/-- An emission that only answers writes nothing. -/
theorem pure {a : α} (h : Q a s.pool) : (Pure.pure a : Emit α).Frames s A flags Q :=
  Meets.pure ⟨List.forall_mem_nil _, h⟩

/-- Nothing is asked of an emission that faults. -/
theorem throw {x : Fault} : (throw x : Emit α).Frames s A flags Q :=
  Meets.throw trivial

/-- Two emissions, one after the other, write what either of them does. -/
theorem bind {k : α → Emit β} {R : β → RegisterSet → Prop} (h : e.Frames s A flags P)
    (hk : ∀ a fs p, P a p → (k a).Frames (emitted s fs p) A flags R) :
    (e >>= k).Frames s A flags R := by
  refine Meets.bind h fun a fs p ⟨hfs, ha⟩ => ?_
  refine Meets.mono (hk a fs p ha) ?_ fun _ _ _ _ => trivial
  rintro b gs q ⟨hgs, hb⟩
  exact ⟨List.forall_mem_append.2 ⟨hfs, hgs⟩, hb⟩

/-- A choice goes on with the same state. -/
theorem lift_bind {x : Except Fault α} {k : α → Emit β} {R : β → RegisterSet → Prop}
    (hk : ∀ a, x = .ok a → (k a).Frames s A flags R) : (lift x >>= k).Frames s A flags R :=
  Meets.lift_bind hk fun _ _ => trivial

/-- A check goes on with the same state. -/
theorem require_bind {holds : Bool} {r : Rejection} {k : Unit → Emit β}
    {R : β → RegisterSet → Prop} (hk : holds = true → (k ()).Frames s A flags R) :
    (require holds r >>= k).Frames s A flags R :=
  Meets.require_bind hk fun _ => trivial

/-- What reads the state first goes on with the same state. -/
theorem get_bind {k : Emitter → Emit α} (h : (k s).Frames s A flags Q) :
    (get >>= k).Frames s A flags Q :=
  Meets.get_bind h

/-- The emission of a form writes what the form does and leaves the pool. -/
theorem form {f : Form} (h : f.Within A flags) :
    (form f).Frames s A flags fun _ p => p = s.pool :=
  Meets.form (fun _ => ⟨List.forall_mem_singleton.2 h, rfl⟩) fun _ _ => trivial

/-- So does the emission of what has to be one instruction. -/
theorem terminal {f : Form} (h : f.Within A flags) :
    (terminal f).Frames s A flags fun _ p => p = s.pool :=
  terminal_eq f ▸ form h

/-- So does the emission of several forms. -/
theorem forms {fs : List Form} (h : ∀ f ∈ fs, f.Within A flags) :
    (forms fs).Frames s A flags fun _ p => p = s.pool :=
  Meets.forms ⟨h, rfl⟩ fun _ _ _ _ _ => trivial

/-- The pool is what it was after a scope. -/
theorem scope {body : Emit α} (h : body.Frames s A flags fun _ _ => True) :
    (scope body).Frames s A flags fun _ p => p = s.pool :=
  Meets.scope (Meets.mono h (fun _ _ _ h => ⟨h.1, rfl⟩) fun _ _ _ _ => trivial)

/-- An emission after registers were withdrawn. -/
theorem reserve_bind {rs : List Register} {k : Unit → Emit β} {R : β → RegisterSet → Prop}
    (hk : (k ()).Frames (emitted s [] (s.pool.eraseMany rs)) A flags R) :
    (reserve rs >>= k).Frames s A flags R :=
  Meets.reserve_bind hk

/-- An emission with a scratch register, which is a general-purpose register of the pool. -/
theorem acquire_bind {view : RegisterView} {k : Register → Emit β} {R : β → RegisterSet → Prop}
    (hk : ∀ temp, temp.IsBuilt → temp.isGeneral → s.pool.contains temp → temp.view = view →
      (k temp).Frames (emitted s [] (s.pool.erase temp)) A flags R) :
    (acquire view >>= k).Frames s A flags R :=
  Meets.acquire_general_bind hk

/-- In a scope for a destination and its sources, the pool holds only what may be written. -/
theorem scopeFor {rd : Register} {sources : List Register} {body : Emit α}
    (h : ∀ p : RegisterSet, (∀ r, p.contains r → MayWrite [rd] sources s.pool r) →
      body.Frames (emitted s [] p) (MayWrite [rd] sources s.pool) flags fun _ _ => True) :
    (scopeFor rd sources body).Frames s (MayWrite [rd] sources s.pool) flags
      fun _ p => p = s.pool :=
  Meets.scopeFor fun p hp =>
    Meets.mono (h p fun r hr => (hp r hr).1) (fun _ _ _ h => ⟨h.1, rfl⟩) fun _ _ _ _ => trivial

end Frames

end Emit

end AArch64
