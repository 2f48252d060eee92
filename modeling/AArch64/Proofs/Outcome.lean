import AArch64.Trap
import Mathlib.Tactic.Common

/-!
# Outcomes of computations that may fail

A statement about a computation that may fail says what holds of its answer and what holds of its
error. Such statements compose along the steps of the computation.

## Main definitions

* `AArch64.Outcome` — a property of the answer and a property of the error.

## Main results

* `AArch64.Outcome.bind` — a computation followed by another.
* `AArch64.Outcome.exists_ok` — a computation without possible errors has an answer.
-/

set_option autoImplicit false

namespace AArch64

/-- The answer, if there is one, has the first property, and the error has the second. -/
def Outcome {ε α : Type} (x : Except ε α) (answer : α → Prop) (error : ε → Prop) : Prop :=
  match x with
  | .ok a => answer a
  | .error e => error e

namespace Outcome

variable {ε α β : Type} {x : Except ε α} {P Q : α → Prop} {E F : ε → Prop}

/-- The outcome of an answer. -/
theorem ok_iff {a : α} : Outcome (.ok a : Except ε α) Q E ↔ Q a := Iff.rfl

/-- The outcome of an error. -/
theorem error_iff {e : ε} : Outcome (.error e : Except ε α) Q E ↔ E e := Iff.rfl

/-- What is known of the answer. -/
theorem of_ok {a : α} (h : Outcome x Q E) (hx : x = .ok a) : Q a := by
  subst hx; exact h

/-- What is known of the error. -/
theorem of_error {e : ε} (h : Outcome x Q E) (hx : x = .error e) : E e := by
  subst hx; exact h

/-- Weaker properties hold as well. -/
theorem mono (h : Outcome x P E) (hQ : ∀ a, P a → Q a) (hF : ∀ e, E e → F e) : Outcome x Q F := by
  cases x with
  | ok a => exact hQ a h
  | error e => exact hF e h

/-- A second computation goes on from the answer of the first. -/
theorem bind {f : α → Except ε β} {R : β → Prop} (h : Outcome x P E)
    (hf : ∀ a, P a → Outcome (f a) R E) : Outcome (x >>= f) R E := by
  cases x with
  | ok a => exact hf a h
  | error e => exact h

/-- A check that stops with an error, before the rest. -/
theorem guard {c : Prop} [Decidable c] {e : ε} (he : c → E e) (h : ¬ c → Outcome x Q E) :
    Outcome (if c then .error e else x) Q E := by
  split
  · next hc => exact he hc
  · next hc => exact h hc

/-- A computation without possible errors has an answer. -/
theorem exists_ok (h : Outcome x Q E) (hE : ∀ e, ¬ E e) : ∃ a, x = .ok a ∧ Q a := by
  cases x with
  | ok a => exact ⟨a, rfl, h⟩
  | error e => exact absurd h (hE e)

end Outcome

end AArch64
