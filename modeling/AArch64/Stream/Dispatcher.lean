import AArch64.Instruction

/-!
# Dispatchers

An observer that hands each instruction on to the handler of its category. Instructions of a
category without a handler go to the handler for all others, if there is one. Handlers are known
by name, so that a dispatcher says who handles an instruction, not what is done then.

## Main definitions

* `AArch64.Dispatcher` — the handlers, and the instruction set that was reported last.
* `AArch64.Dispatcher.on`, `AArch64.Dispatcher.onUnhandled` — setting handlers.
* `AArch64.Dispatcher.route?` — who handles an instruction.
-/

set_option autoImplicit false

namespace AArch64

/-- Handlers named by `η`, by category. -/
structure Dispatcher (η : Type) where
  /-- The handlers, the one that was set last first. -/
  handlers : List (Category × η)
  /-- The handler of categories without one. -/
  unhandled? : Option η
  /-- The instruction set that was reported last. -/
  isa : Isa

namespace Dispatcher

variable {η : Type}

/-- No handlers, in A64. -/
def new : Dispatcher η :=
  { handlers := [], unhandled? := none, isa := .a64 }

/-- Sets the handler of a category in place of an earlier one. -/
def on (d : Dispatcher η) (c : Category) (handler : η) : Dispatcher η :=
  { d with handlers := (c, handler) :: d.handlers }

/-- Sets the handler of categories without one. -/
def onUnhandled (d : Dispatcher η) (handler : η) : Dispatcher η :=
  { d with unhandled? := some handler }

/-- The instruction set is `isa` from now on. -/
def setIsa (d : Dispatcher η) (isa : Isa) : Dispatcher η :=
  { d with isa }

/-- The handler of an instruction. -/
def route? (d : Dispatcher η) (i : Instruction) : Option η :=
  (d.handlers.lookup i.category).or d.unhandled?

end Dispatcher

end AArch64
