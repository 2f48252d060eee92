import AArch64.Proofs.Production

/-!
# Scopes of scratch registers

Code that takes scratch registers opens a scope, acquires registers, and goes on to use them while
it emits operations and opens further scopes. A register is *held* from its acquisition until it is
released or the scope that it was acquired in closes. A well-nested run adds no register to the pool
that is held, and does not replace the pool while a scope is open. Operations may be part of it, and
any of its steps may fault.

The pool of a scope can be changed in many ways before the scope closes, and closing it undoes them
all. So it does not suffice that no held register is in the pool: none may be in a pool that will be
put back while the register is still held. Those are the pools at the openings of the scopes inside
the one that the register was acquired in.

```text
                     pool               held by the outer scope   by the inner scope
open                 {x16, x17}
acquire              {x17}              x16
open                 {x17}              x16
release x16          {x16, x17}
acquire              {x17}                                        x16
close                {x17}
close                {x16, x17}
```

## Main definitions

* `AArch64.OpenScope` — a scope that is open, with the registers that are held in it.
* `AArch64.ScopedSession` — a session with its open scopes.
* `AArch64.ScopedSession.Admits`, `AArch64.ScopedSession.AdmitsRun` — the well-nested runs.
* `AArch64.ScopedSession.Consistent` — how the scopes and the pool fit together.

## Main results

* `AArch64.ScopedSession.Consistent.next` — every step of a well-nested run keeps them consistent.
* `AArch64.ScopedSession.discipline` — what holds after every well-nested run.
-/

set_option autoImplicit false

namespace AArch64

/-! ## The steps on the pool -/

namespace Session

variable {s : Session}

/-- No register is taken from an empty pool. -/
theorem step_acquire_of_empty (h : s.emitter.pool = .empty) (view : RegisterView) :
    s.step (.acquire view) = (.error (.rejected .poolExhausted), s) := by
  simp only [step, run, Emit.apply_acquire, RegisterSet.first?_eq_none_iff.2 h]
  rfl

/-- An acquisition from a proper pool that is not empty takes the lowest register. -/
theorem exists_step_acquire (hpool : s.emitter.pool.IsProper) (h : s.emitter.pool ≠ .empty)
    (view : RegisterView) :
    ∃ r : Register, r.view = view ∧ s.emitter.pool.contains r ∧
      (∀ q, s.emitter.pool.contains q → r.code.toNat ≤ q.code.toNat) ∧
      s.step (.acquire view) = (.ok (.register r),
        { s with emitter := { s.emitter with pool := s.emitter.pool.erase r } }) := by
  obtain ⟨n, first⟩ := Option.ne_none_iff_exists'.1 (mt RegisterSet.first?_eq_none_iff.1 h)
  obtain ⟨r, hr⟩ := hpool.exists_of_first? first view
  obtain ⟨hcode, -, hview⟩ := Register.code_of_general? hr
  refine ⟨r, hview, RegisterSet.contains_of_first? first hr,
    fun q member => hcode ▸ RegisterSet.le_of_contains first member, ?_⟩
  simp only [step, run, Emit.apply_acquire, first, hr]
  rfl

/-- A register of the pool is not given back. -/
theorem step_release_of_contains {r : Register} (h : s.emitter.pool.contains r) :
    s.step (.release r) = (.error (.rejected (.releasedAvailable r)), s) := by
  simp only [step, run, Emit.apply_release, if_pos h]
  rfl

/-- A register that is not in the pool is given back to it. -/
theorem step_release_of_not_contains {r : Register} (h : s.emitter.pool.contains r = false) :
    s.step (.release r) = (.ok .done,
      { s with emitter := { s.emitter with pool := s.emitter.pool.insert r } }) := by
  simp only [step, run, Emit.apply_release, h]
  rfl

/-- Registers that are offered are put into the pool. -/
theorem step_offer (rs : List Register) :
    s.step (.offer rs) = (.ok .done,
      { s with emitter := { s.emitter with pool := s.emitter.pool.insertMany rs } }) := by
  simp only [step, run, Emit.offer_eq]
  rfl

/-- Registers that are reserved are taken out of the pool. -/
theorem step_reserve (rs : List Register) :
    s.step (.reserve rs) = (.ok .done,
      { s with emitter := { s.emitter with pool := s.emitter.pool.eraseMany rs } }) := by
  simp only [step, run, Emit.reserve_eq]
  rfl

/-- An operation keeps the pool, whether it returns or faults. -/
theorem pool_step_operation (s : Session) (op : Operation) :
    (s.step (.operation op)).2.emitter.pool = s.emitter.pool := by
  obtain ⟨fs, -, -, reached⟩ := op.produces_emit.exists_emitted s.emitter
  show (op.emit.apply s.emitter).2.pool = _
  rw [reached]
  rfl

/-- A form leaves the pool, also one that fails its checks. -/
theorem pool_step_form (s : Session) (f : Form) :
    (s.step (.form f)).2.emitter.pool = s.emitter.pool := by
  simp only [step, run, Emit.apply_form]
  cases f.check <;> rfl

end Session

/-! ## Open scopes -/

/-- A scope that is open. -/
structure OpenScope where
  /-- The pool at the opening of the scope. -/
  entry : RegisterSet
  /-- The registers that were acquired in the scope and not released since, the latest first. -/
  held : List Register
  deriving DecidableEq

namespace OpenScope

/-- A register was acquired in the scope. -/
def hold (scope : OpenScope) (r : Register) : OpenScope :=
  { scope with held := r :: scope.held }

/-- A register was released: it is held no more, whatever the view. -/
def drop (scope : OpenScope) (r : Register) : OpenScope :=
  { scope with held := scope.held.filter (·.code ≠ r.code) }

end OpenScope

/-- A session with its open scopes, the innermost first. -/
structure ScopedSession extends Session where
  /-- The open scopes. -/
  scopes : List OpenScope
  deriving DecidableEq

namespace ScopedSession

/-- An emitter before any scope was opened. -/
def start (e : Emitter) : ScopedSession :=
  { emitter := e, saved := [], scopes := [] }

/-- Whether a register is held in an open scope, in some view. -/
def Holds (t : ScopedSession) (r : Register) : Prop :=
  ∃ scope ∈ t.scopes, ∃ q ∈ scope.held, q.code = r.code

/-- Whether a register is held can be decided. -/
instance (t : ScopedSession) (r : Register) : Decidable (t.Holds r) :=
  inferInstanceAs (Decidable (∃ scope ∈ t.scopes, ∃ q ∈ scope.held, q.code = r.code))

/-- The open scopes after a step. -/
def scopesAfter (t : ScopedSession) : Action → List OpenScope
  | .openScope => { entry := t.emitter.pool, held := [] } :: t.scopes
  | .closeScope => t.scopes.tail
  | .acquire view =>
    match (t.step (.acquire view)).1 with
    | .ok (.register r) => t.scopes.modifyHead (·.hold r)
    | _ => t.scopes
  | .release r =>
    match (t.step (.release r)).1 with
    | .ok _ => t.scopes.map (·.drop r)
    | .error _ => t.scopes
  | _ => t.scopes

/-- Takes one step, which may fault. -/
def next (t : ScopedSession) (action : Action) : ScopedSession :=
  { toSession := (t.step action).2, scopes := t.scopesAfter action }

/-- Takes steps one after another. -/
def run (t : ScopedSession) (actions : List Action) : ScopedSession :=
  actions.foldl next t

/-- Whether a step is well nested. Scratch registers are taken and given back in a scope, and no
held register is offered. The pool is replaced outside of all scopes only. -/
def Admits (t : ScopedSession) : Action → Prop
  | .setPool pool => t.scopes = [] ∧ pool.IsProper
  | .offer rs => t.scopes ≠ [] ∧ ∀ r ∈ rs, ¬ t.Holds r
  | .closeScope | .acquire _ | .release _ | .reserve _ => t.scopes ≠ []
  | _ => True

/-- Whether a step is well nested can be decided. -/
instance (t : ScopedSession) : (action : Action) → Decidable (t.Admits action)
  | .setPool pool => inferInstanceAs (Decidable (t.scopes = [] ∧ pool.IsProper))
  | .offer rs => inferInstanceAs (Decidable (t.scopes ≠ [] ∧ ∀ r ∈ rs, ¬ t.Holds r))
  | .closeScope | .acquire _ | .release _ | .reserve _ =>
    inferInstanceAs (Decidable (t.scopes ≠ []))
  | .operation _ | .form _ | .word _ | .setIsa _ | .openScope | .available | .isAvailable _ =>
    .isTrue trivial

/-- Whether every step of a run is well nested. -/
def AdmitsRun : ScopedSession → List Action → Prop
  | _, [] => True
  | t, action :: actions => t.Admits action ∧ (t.next action).AdmitsRun actions

/-- So can whether all steps of a run are. -/
instance decidableAdmitsRun : (t : ScopedSession) → (actions : List Action) →
    Decidable (t.AdmitsRun actions)
  | _, [] => .isTrue trivial
  | t, action :: actions =>
    have := decidableAdmitsRun (t.next action) actions
    inferInstanceAs (Decidable (t.Admits action ∧ (t.next action).AdmitsRun actions))

/-! ## What well-nested runs preserve -/

/-- How the open scopes and the pool fit together. -/
structure Consistent (t : ScopedSession) : Prop where
  /-- The pools that will be put back are those at the openings of the scopes. -/
  saved : t.saved = t.scopes.map OpenScope.entry
  /-- The pool has general-purpose registers only. -/
  proper : t.emitter.pool.IsProper
  /-- So have the pools that will be put back. -/
  entries : ∀ scope ∈ t.scopes, scope.entry.IsProper
  /-- No held register is in the pool. -/
  unavailable : ∀ r, t.Holds r → t.emitter.pool.contains r = false
  /-- No register that is held in a scope is in the pool that a scope inside it puts back. -/
  nested : t.scopes.Pairwise fun inner outer =>
    ∀ r ∈ outer.held, inner.entry.contains r = false

variable {t t' : ScopedSession}

/-- After an acquisition, the register is held and those that were. -/
theorem holds_of_hold {scope : OpenScope} {outer : List OpenScope} {r q : Register}
    (hscopes : t.scopes = scope :: outer) (hscopes' : t'.scopes = scope.hold r :: outer)
    (h : t'.Holds q) : q.code = r.code ∨ t.Holds q := by
  rw [Holds, hscopes'] at h
  obtain ⟨around, member, p, held, code⟩ := h
  rw [Holds, hscopes]
  rcases List.mem_cons.1 member with rfl | member
  · rcases List.mem_cons.1 held with rfl | held
    · exact .inl code.symm
    · exact .inr ⟨scope, List.mem_cons_self, p, held, code⟩
  · exact .inr ⟨around, List.mem_cons_of_mem scope member, p, held, code⟩

/-- After a release, the registers that were held are, except the one that was released. -/
theorem holds_of_drop {r q : Register} (hscopes : t'.scopes = t.scopes.map (·.drop r))
    (h : t'.Holds q) : t.Holds q ∧ q.code ≠ r.code := by
  rw [Holds, hscopes] at h
  obtain ⟨_, member, p, held, code⟩ := h
  obtain ⟨scope, hscope, rfl⟩ := List.mem_map.1 member
  obtain ⟨held, other⟩ := List.mem_filter.1 held
  exact ⟨⟨scope, hscope, p, held, code⟩, code ▸ of_decide_eq_true other⟩

/-- A session that starts with a proper pool is consistent. -/
theorem consistent_start {e : Emitter} (h : e.pool.IsProper) : (start e).Consistent where
  saved := rfl
  proper := h
  entries := List.forall_mem_nil _
  unavailable := by simp [Holds, start]
  nested := .nil

namespace Consistent

/-- The pool may change as long as its members are registers that are not held. -/
theorem of_pool (h : t.Consistent) (hscopes : t'.scopes = t.scopes) (hsaved : t'.saved = t.saved)
    (hproper : t'.emitter.pool.IsProper)
    (hmember : ∀ r, t.Holds r → t'.emitter.pool.contains r = false) : t'.Consistent where
  saved := by rw [hscopes, hsaved, h.saved]
  proper := hproper
  entries := hscopes ▸ h.entries
  unavailable r held := hmember r (by rwa [Holds, hscopes] at held)
  nested := hscopes ▸ h.nested

/-- Steps that keep the pool and the scopes. -/
theorem of_pool_eq (h : t.Consistent) (hscopes : t'.scopes = t.scopes) (hsaved : t'.saved = t.saved)
    (hpool : t'.emitter.pool = t.emitter.pool) : t'.Consistent :=
  h.of_pool hscopes hsaved (hpool ▸ h.proper) (hpool ▸ h.unavailable)

/-- The pool at the opening is the one that will be put back, and nothing held is in it. -/
theorem openScope (h : t.Consistent) : (t.next .openScope).Consistent where
  saved := congrArg (t.emitter.pool :: ·) h.saved
  proper := h.proper
  entries := List.forall_mem_cons.2 ⟨h.proper, h.entries⟩
  unavailable r held := by
    obtain ⟨scope, member, q, heldIn, code⟩ := held
    rcases List.mem_cons.1 member with rfl | member
    · cases heldIn
    · exact h.unavailable r ⟨scope, member, q, heldIn, code⟩
  nested := List.pairwise_cons.2
    ⟨fun scope member r heldIn => h.unavailable r ⟨scope, member, r, heldIn, rfl⟩, h.nested⟩

/-- The registers that are still held after a scope was closed are held in scopes around it, so none
is in the pool that is put back. -/
theorem closeScope (h : t.Consistent) (hopen : t.scopes ≠ []) :
    (t.next .closeScope).Consistent := by
  obtain ⟨⟨emitter, saved⟩, scopes⟩ := t
  obtain ⟨scope, outer, rfl⟩ := List.exists_cons_of_ne_nil hopen
  obtain rfl : saved = scope.entry :: outer.map OpenScope.entry := h.saved
  obtain ⟨disjoint, nested⟩ := List.pairwise_cons.1 h.nested
  obtain ⟨proper, entries⟩ := List.forall_mem_cons.1 h.entries
  refine ⟨rfl, proper, entries, ?_, nested⟩
  rintro r ⟨around, member, q, heldIn, code⟩
  exact RegisterSet.contains_congr _ code ▸ disjoint around member q heldIn

/-- The register that was acquired is held, and has left the pool. -/
theorem acquire (h : t.Consistent) (hopen : t.scopes ≠ []) (view : RegisterView) :
    (t.next (.acquire view)).Consistent := by
  by_cases hempty : t.emitter.pool = .empty
  · have kept : t.next (.acquire view) = t := by
      simp only [next, scopesAfter, Session.step_acquire_of_empty hempty view]
    rwa [kept]
  obtain ⟨r, -, -, -, acquired⟩ := Session.exists_step_acquire h.proper hempty view
  obtain ⟨scope, outer, hscopes⟩ := List.exists_cons_of_ne_nil hopen
  have reached : t.next (.acquire view) =
      { emitter := { t.emitter with pool := t.emitter.pool.erase r }, saved := t.saved,
        scopes := scope.hold r :: outer } := by
    simp only [next, scopesAfter, acquired, hscopes, List.modifyHead_cons]
  obtain ⟨hsaved, proper, entries, unavailable, nested⟩ := h
  rw [hscopes] at hsaved entries nested
  rw [reached]
  refine ⟨hsaved, proper.erase r, List.forall_mem_cons.2 (List.forall_mem_cons.1 entries),
    fun q held => ?_, List.pairwise_cons.2 (List.pairwise_cons.1 nested)⟩
  rw [RegisterSet.contains_erase, Bool.and_eq_false_iff, decide_eq_false_iff_not, not_not]
  rcases holds_of_hold hscopes rfl held with code | held
  · exact .inr code
  · exact .inl (unavailable q held)

/-- The register that was released is in the pool, and held no more. -/
theorem release (h : t.Consistent) (r : Register) : (t.next (.release r)).Consistent := by
  cases hcontains : t.emitter.pool.contains r with
  | true =>
    have kept : t.next (.release r) = t := by
      simp only [next, scopesAfter, Session.step_release_of_contains hcontains]
    rwa [kept]
  | false =>
    have reached : t.next (.release r) =
        { emitter := { t.emitter with pool := t.emitter.pool.insert r }, saved := t.saved,
          scopes := t.scopes.map (·.drop r) } := by
      simp only [next, scopesAfter, Session.step_release_of_not_contains hcontains]
    rw [reached]
    refine ⟨?_, h.proper.insert r, List.forall_mem_map.2 h.entries, fun q held => ?_, ?_⟩
    · rw [h.saved, List.map_map]
      rfl
    · obtain ⟨held, other⟩ := holds_of_drop rfl held
      rw [RegisterSet.contains_insert, h.unavailable q held]
      simp [other]
    · refine List.pairwise_map.2 (h.nested.imp fun disjoint p heldIn => ?_)
      exact disjoint p (List.mem_filter.1 heldIn).1

/-- Registers that are not held may be offered. -/
theorem offer (h : t.Consistent) {rs : List Register} (hfree : ∀ r ∈ rs, ¬ t.Holds r) :
    (t.next (.offer rs)).Consistent := by
  have reached : t.next (.offer rs) =
      { t with emitter := { t.emitter with pool := t.emitter.pool.insertMany rs } } := by
    simp only [next, scopesAfter, Session.step_offer]
  rw [reached]
  refine h.of_pool rfl rfl (h.proper.insertMany rs) fun q held => ?_
  rw [RegisterSet.contains_insertMany, h.unavailable q held, Bool.false_or,
    Bool.and_eq_false_iff, List.any_eq_false]
  refine .inr fun r member code => hfree r member ?_
  obtain ⟨scope, hscope, p, heldIn, hp⟩ := held
  exact ⟨scope, hscope, p, heldIn, hp.trans (of_decide_eq_true code).symm⟩

/-- Registers may be withdrawn. -/
theorem reserve (h : t.Consistent) (rs : List Register) : (t.next (.reserve rs)).Consistent := by
  have reached : t.next (.reserve rs) =
      { t with emitter := { t.emitter with pool := t.emitter.pool.eraseMany rs } } := by
    simp only [next, scopesAfter, Session.step_reserve]
  rw [reached]
  refine h.of_pool rfl rfl (h.proper.eraseMany rs) fun q held => ?_
  rw [RegisterSet.contains_eraseMany, h.unavailable q held, Bool.false_and]

/-- **Every well-nested step keeps scopes and pool consistent**, also one that faults. -/
theorem next (h : t.Consistent) {action : Action} (ha : t.Admits action) :
    (t.next action).Consistent := by
  cases action with
  | operation op => exact h.of_pool_eq rfl rfl (t.pool_step_operation op)
  | form f => exact h.of_pool_eq rfl rfl (t.pool_step_form f)
  | word w => exact h.of_pool_eq rfl rfl rfl
  | setIsa isa => exact h.of_pool_eq rfl rfl rfl
  | setPool pool =>
    refine h.of_pool rfl rfl ha.2 fun r held => ?_
    -- nothing is held outside of all scopes
    simp [Holds, ha.1] at held
  | openScope => exact h.openScope
  | closeScope => exact h.closeScope ha
  | acquire view => exact h.acquire ha view
  | release r => exact h.release r
  | offer rs => exact h.offer ha.2
  | reserve rs => exact h.reserve rs
  | available => exact h.of_pool_eq rfl rfl rfl
  | isAvailable r => exact h.of_pool_eq rfl rfl rfl

/-- So does every well-nested run. -/
theorem run (h : t.Consistent) {actions : List Action} (ha : t.AdmitsRun actions) :
    (t.run actions).Consistent := by
  induction actions generalizing t with
  | nil => exact h
  | cons action actions ih => exact ih (h.next ha.1) ha.2

/-- Closing a scope, after the scopes inside it, puts back the pool that it began with. -/
theorem pool_closeScope (h : t.Consistent) {n : Nat} {scope : OpenScope}
    (hscope : t.scopes[n]? = some scope) :
    (Session.closeScope^[n + 1] t.toSession).emitter.pool = scope.entry := by
  induction n generalizing t with
  | zero =>
    obtain ⟨⟨emitter, saved⟩, scopes⟩ := t
    obtain ⟨outer, rfl⟩ : ∃ outer, scopes = scope :: outer := by
      rw [← List.head?_eq_getElem?] at hscope
      exact List.head?_eq_some_iff.1 hscope
    obtain rfl : saved = scope.entry :: outer.map OpenScope.entry := h.saved
    rfl
  | succ n ih =>
    have hopen : t.scopes ≠ [] := by
      intro hnil
      simp [hnil] at hscope
    refine ih (h.closeScope hopen) ?_
    rw [← hscope]
    exact List.getElem?_tail

end Consistent

/-- **The discipline of scratch scopes.** After every well-nested run from a pool of general-purpose
registers, whatever steps of it have faulted:

* no held register is in the pool;
* an acquisition faults if the pool is empty, and else takes the lowest register of the pool, which
  is none that is held;
* a release faults if the register is in the pool, and else puts it there;
* closing an open scope, after those inside it, puts back the pool at its opening.

**Proof sketch.** The scopes and the pool stay consistent (`Consistent.next`). The step to look at
is closing a scope: what is still held was acquired in scopes around it, and is not in the pool that
is put back (`Consistent.nested`), since it was held when the scope was opened. An operation may use
a held register for its temporaries, but puts the pool back (`Session.pool_step_operation`). -/
theorem discipline {e : Emitter} (hpool : e.pool.IsProper) {actions : List Action}
    (hrun : (start e).AdmitsRun actions) (ht : (start e).run actions = t) :
    (∀ r, t.Holds r → t.emitter.pool.contains r = false) ∧
    (∀ view, t.emitter.pool = .empty →
      t.step (.acquire view) = (.error (.rejected .poolExhausted), t.toSession)) ∧
    (∀ view, t.emitter.pool ≠ .empty → ∃ r : Register, r.view = view ∧
      t.emitter.pool.contains r ∧
      (∀ q, t.emitter.pool.contains q → r.code.toNat ≤ q.code.toNat) ∧ ¬ t.Holds r ∧
      t.step (.acquire view) = (.ok (.register r),
        { t.toSession with emitter := { t.emitter with pool := t.emitter.pool.erase r } })) ∧
    (∀ r, t.emitter.pool.contains r →
      t.step (.release r) = (.error (.rejected (.releasedAvailable r)), t.toSession)) ∧
    (∀ r, t.emitter.pool.contains r = false →
      t.step (.release r) = (.ok .done,
        { t.toSession with emitter := { t.emitter with pool := t.emitter.pool.insert r } })) ∧
    (∀ n scope, t.scopes[n]? = some scope →
      (Session.closeScope^[n + 1] t.toSession).emitter.pool = scope.entry) := by
  obtain rfl := ht
  have h := (consistent_start hpool).run hrun
  refine ⟨h.unavailable, fun view => (Session.step_acquire_of_empty · view),
    fun view hne => ?_, fun r => Session.step_release_of_contains,
    fun r => Session.step_release_of_not_contains, fun n scope => h.pool_closeScope⟩
  obtain ⟨r, hview, member, lowest, acquired⟩ := Session.exists_step_acquire h.proper hne view
  refine ⟨r, hview, member, lowest, fun held => ?_, acquired⟩
  rw [h.unavailable r held] at member
  cases member

/-- Two scopes. Inside the second one, the register of the first one is released and acquired again,
and an operation has one of the held registers as its destination and needs a temporary. -/
def nestedRun : List Action :=
  [.openScope, .acquire .x, .openScope, .release ⟨16, .x⟩, .acquire .w, .offer [⟨9, .x⟩],
    .acquire .c, .operation (.addSub .add ⟨9, .x⟩ ⟨0, .x⟩ (.immediate 0x12345678)),
    .reserve [⟨17, .x⟩], .acquire .x]

/-- The pool is exhausted in the end, and both scopes put their pools back. -/
theorem discipline_nestedRun :
    (Emitter.new .a64).pool.IsProper ∧ (start (.new .a64)).AdmitsRun nestedRun ∧
      ∃ t, (start (.new .a64)).run nestedRun = t ∧
        (t.step (.acquire .x)).1 = .error (.rejected .poolExhausted) ∧
        (Session.closeScope^[1] t.toSession).emitter.pool = .ofList [⟨17, .x⟩] ∧
        (Session.closeScope^[2] t.toSession).emitter.pool = .callClobbered := by
  have proper : (Emitter.new .a64).pool.IsProper := by decide
  have admits : (start (.new .a64)).AdmitsRun nestedRun := by decide
  obtain ⟨-, exhausted, -, -, -, closed⟩ := discipline proper admits rfl
  refine ⟨proper, admits, _, rfl, ?_, closed 0 ⟨_, [⟨9, .c⟩, ⟨16, .w⟩]⟩ ?_, closed 1 ⟨_, []⟩ ?_⟩
  · rw [exhausted .x (by decide)]
  · decide
  · decide

end ScopedSession

end AArch64
