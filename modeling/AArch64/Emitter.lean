import AArch64.Category
import AArch64.CodeBuffer
import AArch64.Form.Encoding
import AArch64.Register.Set

/-!
# The emitter

The state that code is emitted in: the words so far, the scratch registers that may be clobbered,
and the instruction set to emit for. An emission that faults keeps the state that it has reached:
words that were emitted stay.

An emission that needs temporaries takes them from the pool of scratch registers inside a *scope*.
When a scope ends, normally or by a fault, the pool is what it was when the scope began.

```text
scope                pool {x16, x17}
  a ← acquire        pool {x17}         a = x16
  scope
    b ← acquire      pool {}            b = x17
                     pool {x17}
                     pool {x16, x17}
```

## Main definitions

* `AArch64.Emitter` — the state.
* `AArch64.Emit` — an emission: a computation on the state that may fault.
* `AArch64.Emit.form`, `AArch64.Emit.terminal` — emit one instruction.
* `AArch64.Emit.scope` — runs an emission and restores the pool.
* `AArch64.Emit.acquire`, `AArch64.Emit.release`, `AArch64.Emit.reserve`,
  `AArch64.Emit.offer` — the pool inside a scope.
-/

set_option autoImplicit false

namespace AArch64

/-- The state of an emission. -/
structure Emitter where
  /-- The words emitted so far. -/
  code : CodeBuffer
  /-- The scratch registers that can be acquired. -/
  pool : RegisterSet
  /-- The instruction set that is emitted for. -/
  isa : Isa
  deriving DecidableEq

/-- A new emitter with no code and the registers that a call may clobber as its pool. -/
def Emitter.new (isa : Isa) : Emitter :=
  { code := .empty, pool := .callClobbered, isa }

/-- An emission. -/
abbrev Emit := ExceptT Fault (StateM Emitter)

namespace Emit

/-- Runs an emission on a state, for its answer or its fault, and the state reached. -/
def apply {α : Type} (e : Emit α) (s : Emitter) : Except Fault α × Emitter :=
  (e.run).run s

/-! ## Emission -/

/-- Emits a word. -/
def word (w : Word) : Emit Unit :=
  modify fun s => { s with code := s.code.emit w }

/-- A choice between forms, as part of an emission. It does not touch the state. -/
def lift {α : Type} (x : Except Fault α) : Emit α := fun s =>
  (x, s)

/-- Emits one instruction. A rejected form emits nothing. -/
def form (f : Form) : Emit Unit := do
  word (← lift f.encode)

/-- Runs an emission that has to append exactly one word. -/
def single (e : Emit Unit) : Emit Unit := do
  let before := (← get).code.size
  e
  require ((← get).code.size = before + 1) .instructionCount

/-- Emits the instruction that an operation ends with. -/
def terminal (f : Form) : Emit Unit :=
  single (form f)

/-! ## Scratch registers -/

/-- Runs an emission, then puts the pool back as it was. -/
def scope {α : Type} (body : Emit α) : Emit α := fun s =>
  let (answer, s') := body s
  (answer, { s' with pool := s.pool })

/-- A scope puts the pool back, also when its body faults. -/
theorem pool_apply_scope {α : Type} (body : Emit α) (s : Emitter) :
    (apply (scope body) s).2.pool = s.pool := rfl

/-- Changes the pool. -/
def modifyPool (f : RegisterSet → RegisterSet) : Emit Unit :=
  modify fun s => { s with pool := f s.pool }

/-- Changes the pool in checked arithmetic. -/
def updatePool (f : RegisterSet → Except Trap RegisterSet) : Emit Unit := do
  let pool ← lift (Fault.ofTrap (f (← get).pool))
  modifyPool fun _ => pool

/-- Takes the lowest register out of the pool, in a view. -/
def acquire (view : RegisterView) : Emit Register := do
  match (← get).pool.first? with
  | none => throw (.rejected .poolExhausted)
  | some n =>
    match Register.general? n view with
    | none => throw (.rejected .registerNumber)
    | some r =>
      updatePool (·.checkedErase r)
      return r

/-- Puts a register back into the pool, which must not have it. -/
def release (r : Register) : Emit Unit := do
  let available ← lift (Fault.ofTrap ((← get).pool.checkedContains r))
  require (!available) (.releasedAvailable r)
  updatePool (·.checkedInsert r)

/-- Withdraws registers from the pool. -/
def reserve (rs : List Register) : Emit Unit :=
  updatePool fun pool => rs.foldlM RegisterSet.checkedErase pool

/-- Adds registers to the pool. -/
def offer (rs : List Register) : Emit Unit :=
  updatePool fun pool => rs.foldlM RegisterSet.checkedInsert pool

/-- Runs an emission in a scope in which its sources are withdrawn and its destination, unless it
is a source, may hold a temporary. -/
def scopeFor {α : Type} (rd : Register) (sources : List Register) (body : Emit α) : Emit α :=
  scope do
    reserve sources
    if sources.all (·.code ≠ rd.code) then offer [rd]
    body

end Emit

end AArch64
