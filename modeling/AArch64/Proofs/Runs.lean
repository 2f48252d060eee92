import AArch64.Proofs.Execution
import AArch64.Proofs.Frame

/-!
# Emissions as programs

An emission is a program that is written word by word. What the words do to a machine composes along
the steps of the emission: a step starts from the machine that the steps before it have reached, and
may rely on what is known of it.

## Main definitions

* `AArch64.Emit.Runs` — what the words of an emission do to a machine.

## Main results

* `AArch64.Emit.Runs.bind` — an emission followed by another.
* `AArch64.Emit.Runs.exists_of_ok` — what is known of the words of an emission that returns.
-/

set_option autoImplicit false

namespace AArch64

/-! ## Runs of words -/

namespace Machine

/-- Without words, nothing happens. -/
theorem run_nil (m : Machine) : m.run [] = some m := rfl

/-- A machine runs words one after another. -/
theorem run_append (m : Machine) (ws vs : List Word) :
    m.run (ws ++ vs) = (m.run ws).bind (·.run vs) := by
  simp only [run, List.foldlM_append]
  rfl

/-- What forms do one after another. -/
def executeAll (m : Machine) (fs : List Form) : Option Machine :=
  fs.foldlM (fun m f => f.execute m) m

/-- Words that do one by one what their forms do, do so one after another. -/
theorem foldlM_words {step : Machine → Word → Option Machine}
    {execute : Machine → Form → Option Machine} {fs : List Form}
    (h : ∀ f ∈ fs, ∀ m, step m f.word = execute m f) (m : Machine) :
    (fs.map Form.word).foldlM step m = fs.foldlM execute m := by
  induction fs generalizing m with
  | nil => rfl
  | cons f fs ih =>
    obtain ⟨first, rest⟩ := List.forall_mem_cons.1 h
    rw [List.map_cons, List.foldlM_cons, List.foldlM_cons, first m]
    exact congrArg (Option.bind (execute m f)) (funext fun m' => ih rest m')

/-- The words of forms do what the forms do. -/
theorem run_words {fs : List Form} (hcheck : ∀ f ∈ fs, f.check = .ok ())
    (hbuilt : ∀ f ∈ fs, ∀ r ∈ f.registers, r.IsBuilt) (m : Machine) :
    m.run (fs.map Form.word) = m.executeAll fs :=
  foldlM_words (fun f hf m' => f.step_word m' (hcheck f hf) (hbuilt f hf)) m

end Machine

/-! ## Emissions -/

namespace Emit

/-- Whenever an emission returns, its words take a machine to another one that, together with the
answer and the pool, has a property. -/
def Runs {α : Type} (e : Emit α) (s : Emitter) (m : Machine)
    (Q : α → RegisterSet → Machine → Prop) : Prop :=
  e.Meets s (fun a fs p => ∃ m', m.run (fs.map Form.word) = some m' ∧ Q a p m') fun _ _ _ => True

namespace Runs

variable {α β : Type} {e : Emit α} {s : Emitter} {m : Machine}
  {P Q : α → RegisterSet → Machine → Prop} {R : β → RegisterSet → Machine → Prop}

/-- What is known of the words of an emission that returns, for every machine. -/
theorem exists_of_ok {a : α} {s' : Emitter} {Q : Machine → α → RegisterSet → Machine → Prop}
    (h : ∀ m, e.Runs s m (Q m)) (hs : e.apply s = (.ok a, s')) :
    ∃ ws : List Word, s'.code.words = s.code.words ++ ws.toArray ∧
      ∀ m, ∃ m', m.run ws = some m' ∧ Q m a s'.pool m' := by
  obtain ⟨fs, p, -, rfl, -⟩ := (h default).of_ok hs
  refine ⟨fs.map Form.word, rfl, fun m => ?_⟩
  -- the words are the same for all machines
  obtain ⟨gs, q, -, same, hrun⟩ := (h m).of_ok hs
  have code : (fs.map Form.word).toArray = (gs.map Form.word).toArray :=
    (Array.append_right_inj _).1 (congrArg (fun t : Emitter => t.code.words) same)
  rw [congrArg Emitter.pool same, List.toArray_inj code]
  exact hrun

/-- What is known of the end of a run may be weakened. -/
theorem mono (h : e.Runs s m P) (hQ : ∀ a p m', P a p m' → Q a p m') : e.Runs s m Q :=
  Meets.mono h (fun a _ p ⟨m', hrun, hp⟩ => ⟨m', hrun, hQ a p m' hp⟩) fun _ _ _ _ => trivial

/-- An emission that only answers leaves the machine as it is. -/
theorem pure {a : α} (h : Q a s.pool m) : (Pure.pure a : Emit α).Runs s m Q :=
  Meets.pure ⟨m, m.run_nil, h⟩

/-- Nothing is asked of an emission that faults. -/
theorem throw {x : Fault} : (throw x : Emit α).Runs s m Q :=
  Meets.throw trivial

/-- A second emission goes on from the machine that the first one has reached. -/
theorem bind {k : α → Emit β} (h : e.Runs s m P)
    (hk : ∀ a fs p m', P a p m' → (k a).Runs (emitted s fs p) m' R) : (e >>= k).Runs s m R := by
  refine Meets.bind h fun a fs p ⟨m', hrun, hp⟩ => ?_
  refine Meets.mono (hk a fs p m' hp) ?_ fun _ _ _ _ => trivial
  rintro b gs q ⟨m'', hrun', hr⟩
  refine ⟨m'', ?_, hr⟩
  rw [List.map_append, m.run_append, hrun]
  exact hrun'

/-- A choice goes on with the same machine. -/
theorem lift_bind {x : Except Fault α} {k : α → Emit β} (hk : ∀ a, x = .ok a → (k a).Runs s m R) :
    (lift x >>= k).Runs s m R :=
  Meets.lift_bind hk fun _ _ => trivial

/-- A check goes on with the same machine. -/
theorem require_bind {holds : Bool} {r : Rejection} {k : Unit → Emit β}
    (hk : holds = true → (k ()).Runs s m R) : (require holds r >>= k).Runs s m R :=
  Meets.require_bind hk fun _ => trivial

/-- A form that passes its checks is executed. -/
theorem form {f : Form} {Q : Unit → RegisterSet → Machine → Prop}
    (hbuilt : ∀ r ∈ f.registers, r.IsBuilt)
    (h : f.check = .ok () → ∃ m', f.execute m = some m' ∧ Q () s.pool m') :
    (form f).Runs s m Q := by
  refine Meets.form (fun hcheck => ?_) fun _ _ => trivial
  obtain ⟨m', hexecute, hq⟩ := h hcheck
  refine ⟨m', ?_, hq⟩
  rw [Machine.run_words (List.forall_mem_singleton.2 hcheck) (List.forall_mem_singleton.2 hbuilt),
    Machine.executeAll, List.foldlM_cons, hexecute]
  rfl

/-- What has to be one instruction does what its form does. -/
theorem terminal {f : Form} {Q : Unit → RegisterSet → Machine → Prop}
    (hbuilt : ∀ r ∈ f.registers, r.IsBuilt)
    (h : f.check = .ok () → ∃ m', f.execute m = some m' ∧ Q () s.pool m') :
    (terminal f).Runs s m Q :=
  terminal_eq f ▸ form hbuilt h

/-- The forms of a sequence are executed one after another. -/
theorem forms {fs : List Form} {Q : Unit → RegisterSet → Machine → Prop}
    (hbuilt : ∀ f ∈ fs, ∀ r ∈ f.registers, r.IsBuilt)
    (h : ∃ m', m.executeAll fs = some m' ∧ Q () s.pool m') : (forms fs).Runs s m Q := by
  rw [forms_eq]
  obtain ⟨m', hexecute, hq⟩ := h
  induction fs generalizing s m with
  | nil =>
    obtain rfl : m = m' := Option.some.inj hexecute
    exact pure hq
  | cons f fs ih =>
    obtain ⟨built, builts⟩ := List.forall_mem_cons.1 hbuilt
    rw [Machine.executeAll, List.foldlM_cons] at hexecute
    obtain ⟨m₁, hfirst, hrest⟩ := Option.bind_eq_some_iff.1 hexecute
    refine bind (P := fun _ p m' => p = s.pool ∧ m' = m₁)
      (form built fun _ => ⟨m₁, hfirst, rfl, rfl⟩) ?_
    rintro _ gs _ _ ⟨rfl, rfl⟩
    exact ih builts hrest hq

/-- A scope restores the pool. -/
theorem scope {body : Emit α} (h : body.Runs s m fun a _ m' => Q a s.pool m') :
    (scope body).Runs s m Q :=
  Meets.scope h

/-- Reserving registers leaves the machine. -/
theorem reserve_bind {rs : List Register} {k : Unit → Emit β}
    (hk : (k ()).Runs (emitted s [] (s.pool.eraseMany rs)) m R) : (reserve rs >>= k).Runs s m R :=
  Meets.reserve_bind hk

/-- Offering registers leaves the machine. -/
theorem offer_bind {rs : List Register} {k : Unit → Emit β}
    (hk : (k ()).Runs (emitted s [] (s.pool.insertMany rs)) m R) : (offer rs >>= k).Runs s m R :=
  Meets.offer_bind hk

/-- Taking a register of the pool leaves the machine. -/
theorem acquire_bind {view : RegisterView} {k : Register → Emit β}
    (hk : ∀ temp, temp.IsBuilt → temp.isGeneral → s.pool.contains temp → temp.view = view →
      (k temp).Runs (emitted s [] (s.pool.erase temp)) m R) : (acquire view >>= k).Runs s m R :=
  Meets.acquire_general_bind hk

/-- The pool of a scope for a destination and its sources has no source. -/
theorem scopeFor {rd : Register} {sources : List Register} {body : Emit α}
    (h : ∀ p : RegisterSet, (∀ r, p.contains r → MayWrite [rd] sources s.pool r ∧
        ∀ q ∈ sources, q.code ≠ r.code) →
      body.Runs (emitted s [] p) m fun a _ m' => Q a s.pool m') :
    (scopeFor rd sources body).Runs s m Q :=
  Meets.scopeFor h

end Runs

end Emit

end AArch64
