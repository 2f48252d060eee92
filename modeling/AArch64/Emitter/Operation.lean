import AArch64.Emitter.Branch
import AArch64.Emitter.LoadStore
import AArch64.Emitter.Logical

/-!
# Operations and runs

The operations that can be emitted, as data, and runs of them with scopes that are opened and
closed explicitly. A run keeps going after a fault.

## Main definitions

* `AArch64.Operation` — an operation, and `AArch64.Operation.emit`, its emission.
* `AArch64.Action` — an operation or a step on the scratch pool, with its `AArch64.Answer`.
* `AArch64.Session` — an emitter with the pools to restore, and `AArch64.Session.step`.
-/

set_option autoImplicit false

namespace AArch64

/-! ## Operations -/

/-- An operation on registers, operands and memory. -/
inductive Operation
  /-- Adds or subtracts. -/
  | addSub (op : AddSubOp) (rd rn : Register) (operand : Operand)
  /-- Compares by subtraction. -/
  | cmp (rn : Register) (operand : Operand)
  /-- Compares by addition. -/
  | cmn (rn : Register) (operand : Operand)
  /-- Takes the negative. -/
  | neg (rd : Register) (operand : Operand)
  /-- Combines bit by bit. -/
  | logical (op : LogicalOp) (invert : Bool) (rd rn : Register) (operand : Operand)
  /-- Compares by conjunction. -/
  | tst (rn : Register) (operand : Operand)
  /-- Moves. -/
  | mov (rd : Register) (operand : Operand)
  /-- Loads or stores. -/
  | loadStore (op : LoadStoreOp) (rt : Register) (mem : MemOperand)
  /-- Branches to a register. -/
  | branch (op : BranchOp) (rn : Register)
  /-- Returns. -/
  | ret
  /-- Branches through memory. -/
  | branchCapability (mem : MemOperand) (link : Bool)
  /-- Adds an offset to a capability. -/
  | capabilityAdd (cd cn : Register) (offset : Int)
  deriving DecidableEq

/-- The emission of an operation. Comparisons write the zero register, and the negative is
subtracted from it. -/
def Operation.emit : Operation → Emit Unit
  | .addSub op rd rn operand => Emit.addSub op rd rn operand
  | .cmp rn operand => Emit.addSub .subs (.zero rn.view) rn operand
  | .cmn rn operand => Emit.addSub .adds (.zero rn.view) rn operand
  | .neg rd operand => Emit.addSub .sub rd (.zero rd.view) operand
  | .logical op invert rd rn operand => Emit.logical op invert rd rn operand
  | .tst rn operand => Emit.logical .ands false (.zero rn.view) rn operand
  | .mov rd operand => Emit.mov rd operand
  | .loadStore op rt mem => Emit.loadStore op rt mem
  | .branch op rn => Emit.branch op rn
  | .ret => Emit.ret
  | .branchCapability mem link => Emit.branchCapability mem link
  | .capabilityAdd cd cn offset => Emit.capabilityAdd cd cn offset

/-! ## Runs -/

/-- A step of a run. -/
inductive Action
  /-- Emits an operation. -/
  | operation (op : Operation)
  /-- Emits one instruction. -/
  | form (f : Form)
  /-- Emits a word as it is. -/
  | word (w : Word)
  /-- Changes the instruction set. -/
  | setIsa (isa : Isa)
  /-- Replaces the pool. -/
  | setPool (pool : RegisterSet)
  /-- Opens a scope. -/
  | openScope
  /-- Closes the innermost scope. -/
  | closeScope
  /-- Takes a register out of the pool. -/
  | acquire (view : RegisterView)
  /-- Puts a register back. -/
  | release (r : Register)
  /-- Adds registers to the pool. -/
  | offer (rs : List Register)
  /-- Withdraws registers from the pool. -/
  | reserve (rs : List Register)
  /-- Asks for the pool. -/
  | available
  /-- Asks whether a register is in the pool. -/
  | isAvailable (r : Register)
  deriving DecidableEq

/-- What a step answers. -/
inductive Answer
  /-- Nothing. -/
  | done
  /-- The register that was acquired. -/
  | register (r : Register)
  /-- The pool. -/
  | pool (s : RegisterSet)
  /-- Yes or no. -/
  | flag (b : Bool)
  deriving DecidableEq

/-- An emitter, and the pools to restore when the open scopes close, the innermost first. -/
structure Session where
  /-- The emitter. -/
  emitter : Emitter
  /-- The pools at the openings of the scopes that are open. -/
  saved : List RegisterSet
  deriving DecidableEq

namespace Session

/-- A session without open scopes. -/
def new (isa : Isa) : Session :=
  { emitter := .new isa, saved := [] }

/-- Runs an emission in the innermost scope. -/
def run {α : Type} (s : Session) (e : Emit α) (answer : α → Answer) :
    Except Fault Answer × Session :=
  let (result, emitter) := e.apply s.emitter
  (result.map answer, { s with emitter })

/-- Opens a scope. -/
def openScope (s : Session) : Session :=
  { s with saved := s.emitter.pool :: s.saved }

/-- Closes the innermost scope. Without one, nothing changes. -/
def closeScope (s : Session) : Session :=
  match s.saved with
  | [] => s
  | pool :: saved => { emitter := { s.emitter with pool }, saved }

/-- Takes one step. A step that faults leaves what it has emitted, and the pool as it was. -/
def step (s : Session) : Action → Except Fault Answer × Session
  | .operation op => s.run op.emit fun _ => .done
  | .form f => s.run (Emit.form f) fun _ => .done
  | .word w => s.run (Emit.word w) fun _ => .done
  | .setIsa isa => s.run (modify fun e => { e with isa }) fun _ => .done
  | .setPool pool => s.run (Emit.modifyPool fun _ => pool) fun _ => .done
  | .openScope => (.ok .done, s.openScope)
  | .closeScope => (.ok .done, s.closeScope)
  | .acquire view => s.run (Emit.acquire view) .register
  | .release r => s.run (Emit.release r) fun _ => .done
  | .offer rs => s.run (Emit.offer rs) fun _ => .done
  | .reserve rs => s.run (Emit.reserve rs) fun _ => .done
  | .available => (.ok (.pool s.emitter.pool), s)
  | .isAvailable r => (.ok (.flag (s.emitter.pool.contains r)), s)

end Session

end AArch64
