import AArch64.Emitter.Move
import AArch64.Proofs.Registers
import Mathlib.Tactic.Common

/-!
# What an emission does

An emission appends the words of forms that pass their checks, keeps the instruction set, and
changes the pool. A statement about an emission says what holds of its answer, of the forms and of
the pool when it returns, and what holds of them when it faults. Such statements compose along the
steps of the emission.

## Main definitions

* `AArch64.Emit.Meets` — what an emission does from a state.

## Main results

* `AArch64.Emit.Meets.bind` — an emission followed by another.
* `AArch64.Emit.Meets.scope` — a scope restores the pool.
* `AArch64.Emit.Meets.acquire` — what a scratch register is.
-/

set_option autoImplicit false

namespace AArch64

namespace Emit

/-- The state after forms were emitted, with a pool. -/
def emitted (s : Emitter) (fs : List Form) (pool : RegisterSet) : Emitter where
  code := { words := s.code.words ++ (fs.map Form.word).toArray }
  pool := pool
  isa := s.isa

/-- Without forms, and with its own pool, a state stays as it is. -/
theorem emitted_nil (s : Emitter) : emitted s [] s.pool = s := by
  simp [emitted]

/-- Forms that are emitted after other ones stand after them, and the last pool counts. -/
theorem emitted_emitted (s : Emitter) (fs gs : List Form) (p q : RegisterSet) :
    emitted (emitted s fs p) gs q = emitted s (fs ++ gs) q := by
  simp [emitted]

/-- What the emission of a form does. -/
theorem apply_form (f : Form) (s : Emitter) :
    (form f).apply s = match f.check with
      | .ok () => (.ok (), emitted s [f] s.pool)
      | .error y => (.error y, s) := by
  cases hcheck : f.check with
  | ok u =>
    have encoded : f.encode = .ok f.word := Form.encode_eq_ok_iff.2 ⟨hcheck, rfl⟩
    simp only [form, encoded]
    rfl
  | error y =>
    have encoded : f.encode = .error y := by
      rw [Form.encode, hcheck]
      rfl
    simp only [form, encoded]
    rfl

/-- A second emission starts from the state that the first one has reached. -/
theorem apply_bind {α β : Type} (e : Emit α) (k : α → Emit β) (s : Emitter) :
    (e >>= k).apply s = match e.apply s with
      | (.ok a, s') => (k a).apply s'
      | (.error x, s') => (.error x, s') := by
  simp only [apply, ExceptT.run, StateT.run, Bind.bind, ExceptT.bind, ExceptT.mk, StateT.bind]
  cases e s with
  | mk answer s' => cases answer <;> rfl

/-- Reading the state changes nothing. -/
theorem apply_get (s : Emitter) : (get : Emit Emitter).apply s = (.ok s, s) := rfl

/-- Reading the state changes nothing. -/
theorem apply_get_bind {α : Type} (k : Emitter → Emit α) (s : Emitter) :
    (get >>= k : Emit α).apply s = (k s).apply s := rfl

/-- The instruction that an operation ends with is one: a form that returns has appended one
word. -/
theorem terminal_eq (f : Form) : terminal f = form f := by
  funext s
  show (terminal f).apply s = (form f).apply s
  simp only [terminal, single, apply_bind, apply_get, apply_form]
  cases f.check with
  | error y => rfl
  | ok u =>
    have size : (emitted s [f] s.pool).code.size = s.code.size + 1 := by
      simp [emitted, CodeBuffer.size]
    simp only [size, decide_true]
    rfl

/-- One instruction or several are emitted in the same way. -/
theorem forms_eq (fs : List Form) : forms fs = fs.forM form := by
  match fs with
  | [] => rfl
  | [f] => simp [forms, terminal_eq]
  | f :: g :: rest => rfl

/-- A change of the pool in checked arithmetic that always has an answer. -/
theorem updatePool_eq {f : RegisterSet → Except Trap RegisterSet} {g : RegisterSet → RegisterSet}
    (h : ∀ pool, f pool = .ok (g pool)) : updatePool f = modifyPool g := by
  funext s
  show (updatePool f).apply s = (modifyPool g).apply s
  simp [updatePool, h]
  rfl

/-- To reserve registers is to take them out of the pool. -/
theorem reserve_eq (rs : List Register) : reserve rs = modifyPool (·.eraseMany rs) := by
  refine updatePool_eq fun pool => ?_
  induction rs generalizing pool with
  | nil => rfl
  | cons r rs ih =>
    rw [List.foldlM_cons, RegisterSet.checkedErase_eq]
    exact ih (pool.erase r)

/-- To offer registers is to put them into the pool. -/
theorem offer_eq (rs : List Register) : offer rs = modifyPool (·.insertMany rs) := by
  refine updatePool_eq fun pool => ?_
  induction rs generalizing pool with
  | nil => rfl
  | cons r rs ih =>
    rw [List.foldlM_cons, RegisterSet.checkedInsert_eq]
    exact ih (pool.insert r)

/-- What an acquisition does: it takes the first number of the pool. -/
theorem apply_acquire (view : RegisterView) (s : Emitter) :
    (acquire view).apply s = match s.pool.first? with
      | none => (.error (.rejected .poolExhausted), s)
      | some n => match Register.general? n view with
        | none => (.error (.rejected .registerNumber), s)
        | some r => (.ok r, { s with pool := s.pool.erase r }) := by
  rw [acquire, apply_get_bind]
  cases s.pool.first? with
  | none => rfl
  | some n =>
    dsimp only
    cases Register.general? n view with
    | none => rfl
    | some r =>
      dsimp only
      rw [updatePool_eq fun pool => pool.checkedErase_eq r]
      rfl

/-- What a release does: it refuses a register that is in the pool. -/
theorem apply_release (r : Register) (s : Emitter) :
    (release r).apply s =
      if s.pool.contains r then (.error (.rejected (.releasedAvailable r)), s)
      else (.ok (), { s with pool := s.pool.insert r }) := by
  rw [release, apply_get_bind, RegisterSet.checkedContains_eq,
    updatePool_eq fun pool => pool.checkedInsert_eq r]
  cases s.pool.contains r <;> rfl

/-- From a state, an emission emits forms that pass their checks and leaves a pool. When it returns,
its answer, the forms and the pool have the first property, and when it faults, the fault, the forms
and the pool have the second one. -/
def Meets {α : Type} (e : Emit α) (s : Emitter) (Q : α → List Form → RegisterSet → Prop)
    (E : Fault → List Form → RegisterSet → Prop) : Prop :=
  ∃ fs p, (∀ f ∈ fs, f.check = .ok ()) ∧ (e.apply s).2 = emitted s fs p ∧
    match (e.apply s).1 with
    | .ok a => Q a fs p
    | .error x => E x fs p

namespace Meets

variable {α β : Type} {e : Emit α} {s : Emitter} {P Q : α → List Form → RegisterSet → Prop}
  {E F : Fault → List Form → RegisterSet → Prop}

/-- What is known of an emission that returns. -/
theorem of_ok {a : α} {s' : Emitter} (h : e.Meets s Q E) (hs : e.apply s = (.ok a, s')) :
    ∃ fs p, (∀ f ∈ fs, f.check = .ok ()) ∧ s' = emitted s fs p ∧ Q a fs p := by
  obtain ⟨fs, p, hfs, hs', h⟩ := h
  rw [hs] at hs' h
  exact ⟨fs, p, hfs, hs', h⟩

/-- Properties may be weakened. -/
theorem mono (h : e.Meets s P E) (hQ : ∀ a fs p, P a fs p → Q a fs p)
    (hF : ∀ x fs p, E x fs p → F x fs p) : e.Meets s Q F := by
  obtain ⟨fs, p, hfs, hs, h⟩ := h
  refine ⟨fs, p, hfs, hs, ?_⟩
  cases hanswer : (e.apply s).1 with
  | ok a =>
    rw [hanswer] at h
    exact hQ a fs p h
  | error x =>
    rw [hanswer] at h
    exact hF x fs p h

/-- An emission that only answers emits nothing and leaves the pool. -/
theorem pure {a : α} (h : Q a [] s.pool) : (Pure.pure a : Emit α).Meets s Q E :=
  ⟨[], s.pool, by simp, (emitted_nil s).symm, h⟩

/-- An emission that only faults emits nothing and leaves the pool. -/
theorem throw {x : Fault} (h : E x [] s.pool) : (throw x : Emit α).Meets s Q E :=
  ⟨[], s.pool, by simp, (emitted_nil s).symm, h⟩

/-- A second emission goes on from where the first one stopped. -/
theorem bind {k : α → Emit β} {R : β → List Form → RegisterSet → Prop} (h : e.Meets s P E)
    (hk : ∀ a fs p, P a fs p → (k a).Meets (emitted s fs p) (fun b gs q => R b (fs ++ gs) q)
      fun x gs q => E x (fs ++ gs) q) :
    (e >>= k).Meets s R E := by
  obtain ⟨fs, p, hfs, hs, h⟩ := h
  rw [Meets, apply_bind]
  cases hanswer : e.apply s with
  | mk answer s' =>
    rw [hanswer] at h hs
    cases answer with
    | error x => exact ⟨fs, p, hfs, hs, h⟩
    | ok a =>
      obtain ⟨gs, q, hgs, hs', h'⟩ := hk a fs p h
      obtain rfl : s' = emitted s fs p := hs
      refine ⟨fs ++ gs, q, fun f hf => ?_, ?_, h'⟩
      · rcases List.mem_append.1 hf with hf | hf
        · exact hfs f hf
        · exact hgs f hf
      · rw [← emitted_emitted]
        exact hs'

/-- A choice that does not touch the state. -/
theorem lift {x : Except Fault α} (hok : ∀ a, x = .ok a → Q a [] s.pool)
    (herror : ∀ y, x = .error y → E y [] s.pool) : (lift x).Meets s Q E := by
  refine ⟨[], s.pool, by simp, (emitted_nil s).symm, ?_⟩
  cases x with
  | ok a => exact hok a rfl
  | error y => exact herror y rfl

/-- A check emits nothing and leaves the pool, whether it passes or not. -/
theorem require {holds : Bool} {r : Rejection} {Q : Unit → List Form → RegisterSet → Prop}
    (hok : holds = true → Q () [] s.pool) (herror : holds = false → E (.rejected r) [] s.pool) :
    (require holds r : Emit Unit).Meets s Q E := by
  cases holds with
  | true => exact pure (hok rfl)
  | false => exact throw (herror rfl)

/-- A form that passes its checks is emitted; a form that does not emits nothing. -/
theorem form {f : Form} {Q : Unit → List Form → RegisterSet → Prop}
    (hok : f.check = .ok () → Q () [f] s.pool)
    (herror : ∀ y, f.check = .error y → E y [] s.pool) : (form f).Meets s Q E := by
  rw [Meets, apply_form]
  cases hcheck : f.check with
  | ok u => exact ⟨[f], s.pool, by simpa using hcheck, rfl, hok hcheck⟩
  | error y => exact ⟨[], s.pool, by simp, (emitted_nil s).symm, herror y hcheck⟩

/-- The instruction that an operation ends with. -/
theorem terminal {f : Form} {Q : Unit → List Form → RegisterSet → Prop}
    (hok : f.check = .ok () → Q () [f] s.pool)
    (herror : ∀ y, f.check = .error y → E y [] s.pool) : (terminal f).Meets s Q E :=
  terminal_eq f ▸ form hok herror

/-- A scope restores the pool, whether its body returns or faults. -/
theorem scope {body : Emit α}
    (h : body.Meets s (fun a fs _ => Q a fs s.pool) fun x fs _ => E x fs s.pool) :
    (scope body).Meets s Q E := by
  obtain ⟨fs, p, hfs, hs, h⟩ := h
  have run : (Emit.scope body).apply s =
      ((body.apply s).1, { (body.apply s).2 with pool := s.pool }) := rfl
  rw [Meets, run]
  refine ⟨fs, s.pool, hfs, ?_, h⟩
  rw [hs]
  rfl

/-- A change of the pool emits nothing. -/
theorem modifyPool {g : RegisterSet → RegisterSet} {Q : Unit → List Form → RegisterSet → Prop}
    (h : Q () [] (g s.pool)) : (modifyPool g).Meets s Q E := by
  have run : (Emit.modifyPool g).apply s = (.ok (), { s with pool := g s.pool }) := rfl
  rw [Meets, run]
  refine ⟨[], g s.pool, by simp, ?_, h⟩
  simp [emitted]

/-- What reads the state first goes on with the state. -/
theorem get_bind {k : Emitter → Emit α} (h : (k s).Meets s Q E) : (get >>= k).Meets s Q E := by
  rw [Meets, apply_get_bind]
  exact h

/-! ### One after another -/

variable {R : β → List Form → RegisterSet → Prop}

/-- A choice goes on with the same state. -/
theorem lift_bind {x : Except Fault α} {k : α → Emit β}
    (hk : ∀ a, x = .ok a → (k a).Meets s R E) (herror : ∀ y, x = .error y → E y [] s.pool) :
    (Emit.lift x >>= k).Meets s R E := by
  refine bind (P := fun a fs p => x = .ok a ∧ fs = [] ∧ p = s.pool)
    (lift (fun a ha => ⟨ha, rfl, rfl⟩) herror) ?_
  rintro a _ _ ⟨ha, rfl, rfl⟩
  rw [emitted_nil]
  exact hk a ha

/-- A check goes on with the same state. -/
theorem require_bind {holds : Bool} {r : Rejection} {k : Unit → Emit β}
    (hk : holds = true → (k ()).Meets s R E) (herror : holds = false → E (.rejected r) [] s.pool) :
    (AArch64.require holds r >>= k).Meets s R E := by
  refine bind (P := fun _ fs p => holds = true ∧ fs = [] ∧ p = s.pool)
    (require (fun h => ⟨h, rfl, rfl⟩) herror) ?_
  rintro _ _ _ ⟨h, rfl, rfl⟩
  rw [emitted_nil]
  exact hk h

/-- The forms of a sequence are emitted if they all pass their checks. -/
theorem forms {fs : List Form} {Q : Unit → List Form → RegisterSet → Prop}
    (hok : Q () fs s.pool) (herror : ∀ f ∈ fs, ∀ y, f.check = .error y → ∀ gs, E y gs s.pool) :
    (forms fs).Meets s Q E := by
  rw [forms_eq]
  induction fs generalizing s Q E with
  | nil => exact pure hok
  | cons f fs ih =>
    obtain ⟨hf, hfs⟩ := List.forall_mem_cons.1 herror
    refine bind (P := fun _ gs p => gs = [f] ∧ p = s.pool)
      (form (fun _ => ⟨rfl, rfl⟩) fun y hy => hf y hy []) ?_
    rintro _ _ _ ⟨rfl, rfl⟩
    exact ih hok fun g hg y hy gs => hfs g hg y hy _

/-! ## Scratch registers -/

/-- Reserving registers emits nothing. -/
theorem reserve {rs : List Register} {Q : Unit → List Form → RegisterSet → Prop}
    (h : Q () [] (s.pool.eraseMany rs)) : (reserve rs).Meets s Q E :=
  reserve_eq rs ▸ modifyPool h

/-- Offering registers emits nothing. -/
theorem offer {rs : List Register} {Q : Unit → List Form → RegisterSet → Prop}
    (h : Q () [] (s.pool.insertMany rs)) : (offer rs).Meets s Q E :=
  offer_eq rs ▸ modifyPool h

/-- A scratch register is a member of the pool, and leaves it. There is none if the pool is empty or
starts with a number that is no register's. -/
theorem acquire {view : RegisterView} {Q : Register → List Form → RegisterSet → Prop}
    (hok : ∀ n r, s.pool.first? = some n → Register.general? n view = some r →
      Q r [] (s.pool.erase r))
    (hempty : s.pool.first? = none → E (.rejected .poolExhausted) [] s.pool)
    (hnumber : ∀ n, s.pool.first? = some n → Register.general? n view = none →
      E (.rejected .registerNumber) [] s.pool) :
    (acquire view).Meets s Q E := by
  rw [Meets, apply_acquire]
  cases hfirst : s.pool.first? with
  | none => exact ⟨[], s.pool, by simp, (emitted_nil s).symm, hempty hfirst⟩
  | some n =>
    dsimp only
    cases hr : Register.general? n view with
    | none => exact ⟨[], s.pool, by simp, (emitted_nil s).symm, hnumber n hfirst hr⟩
    | some r => exact ⟨[], s.pool.erase r, by simp, by simp [emitted], hok n r hfirst hr⟩

/-- An emission after registers were withdrawn. -/
theorem reserve_bind {rs : List Register} {k : Unit → Emit β}
    (hk : (k ()).Meets (emitted s [] (s.pool.eraseMany rs)) R E) :
    (Emit.reserve rs >>= k).Meets s R E := by
  refine bind (P := fun _ fs p => fs = [] ∧ p = s.pool.eraseMany rs) (reserve ⟨rfl, rfl⟩) ?_
  rintro _ _ _ ⟨rfl, rfl⟩
  exact hk

/-- An emission after registers were added. -/
theorem offer_bind {rs : List Register} {k : Unit → Emit β}
    (hk : (k ()).Meets (emitted s [] (s.pool.insertMany rs)) R E) :
    (Emit.offer rs >>= k).Meets s R E := by
  refine bind (P := fun _ fs p => fs = [] ∧ p = s.pool.insertMany rs) (offer ⟨rfl, rfl⟩) ?_
  rintro _ _ _ ⟨rfl, rfl⟩
  exact hk

/-- An emission with a scratch register. -/
theorem acquire_bind {view : RegisterView} {k : Register → Emit β}
    (hk : ∀ n temp, s.pool.first? = some n → Register.general? n view = some temp →
      (k temp).Meets (emitted s [] (s.pool.erase temp)) R E)
    (hempty : s.pool.first? = none → E (.rejected .poolExhausted) [] s.pool)
    (hnumber : ∀ n, s.pool.first? = some n → Register.general? n view = none →
      E (.rejected .registerNumber) [] s.pool) :
    (Emit.acquire view >>= k).Meets s R E := by
  refine bind (P := fun temp fs p => (∃ n, s.pool.first? = some n ∧
      Register.general? n view = some temp) ∧ fs = [] ∧ p = s.pool.erase temp)
    (acquire (fun n r hn hr => ⟨⟨n, hn, hr⟩, rfl, rfl⟩) hempty hnumber) ?_
  rintro temp _ _ ⟨⟨n, hn, htemp⟩, rfl, rfl⟩
  exact hk n temp hn htemp

end Meets

end Emit

end AArch64
