import AArch64.Stream
import Mathlib.Data.List.TakeDrop
import Mathlib.Tactic.Common

/-!
# Requests to a decoder

What can be asked of a decoder, and what a list of requests does. A request that decodes a range, or
that decodes a word in another instruction set, does several things one after another. It is taken
apart into *primitives*, each of which changes the observers, the instruction set or the position,
or decodes one word. A request that traps has stopped in one of its primitives.

## Main definitions

* `AArch64.Primitive`, `AArch64.Decoder.perform` — one thing that is asked of a decoder.
* `AArch64.Decoder.performAll` — primitives, one after another until one traps.
* `AArch64.Request`, `AArch64.Decoder.answer` — the operations of a decoder.
* `AArch64.Request.primitives` — what an operation does, one by one.
* `AArch64.Decoder.answerAll` — requests, one after another, whether they trap or not.

## Main results

* `AArch64.Decoder.exists_register` — an observer that is registered joins those that are.
* `AArch64.Decoder.answer_eq_performAll` — an operation is its primitives.
-/

set_option autoImplicit false

namespace AArch64

/-! ## Steps one after another -/

namespace Step

variable {ω ρ : Type}

/-- A step without its answer. -/
def discard (s : Step ω ρ) : Step ω Unit where
  decoder := s.decoder
  events := s.events
  result := s.result.map fun _ => ()

/-- A step, and a second one from the decoder that it reaches unless it traps. -/
def andThen (s : Step ω Unit) (k : Decoder ω → Step ω ρ) : Step ω ρ :=
  match s.result with
  | .error t => { decoder := s.decoder, events := s.events, result := .error t }
  | .ok () =>
    let next := k s.decoder
    { next with events := s.events ++ next.events }

end Step

/-! ## Primitives -/

/-- One thing that is asked of a decoder whose observers are named by `ω`. -/
inductive Primitive (ω : Type)
  /-- Registers an observer after all others. -/
  | append (o : ω)
  /-- Registers an observer before all others. -/
  | prepend (o : ω)
  /-- Registers an observer before another. -/
  | insertBefore (o anchor : ω)
  /-- Registers an observer after another. -/
  | insertAfter (o anchor : ω)
  /-- Takes the registrations of an observer back. -/
  | remove (o : ω)
  /-- Moves the stream. -/
  | setPosition (position : Nat)
  /-- Changes the instruction set. -/
  | setIsa (isa : Isa)
  /-- Decodes a word. -/
  | decode (w : Word)

/-- The observer that is registered, wherever it is put. -/
def Primitive.registers? {ω : Type} : Primitive ω → Option ω
  | .append o | .prepend o | .insertBefore o _ | .insertAfter o _ => some o
  | _ => none

namespace Decoder

variable {ω : Type} [DecidableEq ω]

/-- Does one thing. -/
def perform (d : Decoder ω) : Primitive ω → Step ω Unit
  | .append o => d.append o
  | .prepend o => d.prepend o
  | .insertBefore o anchor => d.insertBefore o anchor
  | .insertAfter o anchor => d.insertAfter o anchor
  | .remove o => d.remove o
  | .setPosition position => d.setPosition position
  | .setIsa isa => d.setIsa isa
  | .decode w => (d.decode w).discard

/-- Does one thing after another, until one traps. -/
def performAll (d : Decoder ω) : List (Primitive ω) → Step ω Unit
  | [] => { decoder := d, events := [], result := .ok () }
  | p :: ps => (d.perform p).andThen (performAll · ps)

end Decoder

/-! ## Requests -/

/-- An operation of a decoder with its arguments. -/
inductive Request (ω : Type)
  /-- One thing. -/
  | primitive (p : Primitive ω)
  /-- Decodes a word in an instruction set. -/
  | decodeAs (w : Word) (isa : Isa)
  /-- Decodes a range of bytes. -/
  | decodeRange (bytes : List (BitVec 8)) (switches : SwitchMap)

namespace Request

variable {ω : Type}

/-- The primitives of words that start at an offset of a range: before each word the switches that
are due, then the word. -/
def ofWords : (words : List Word) → (offset : Nat) → (switches : SwitchMap) → List (Primitive ω)
  | [], _, _ => []
  | w :: words, offset, switches =>
    let (due, later) := switches.span (·.1 ≤ offset)
    due.map (.setIsa ·.2) ++ .decode w :: ofWords words (offset + 4) later

/-- What an operation does, one by one. -/
def primitives : Request ω → List (Primitive ω)
  | .primitive p => [p]
  | .decodeAs w isa => [.setIsa isa, .decode w]
  | .decodeRange bytes switches => ofWords (Word.listOfBytes bytes) 0 switches

end Request

namespace Decoder

variable {ω : Type} [DecidableEq ω]

/-- Carries out an operation. -/
def answer (d : Decoder ω) : Request ω → Step ω Unit
  | .primitive p => d.perform p
  | .decodeAs w isa => (d.decodeAs w isa).discard
  | .decodeRange bytes switches => (d.decodeRange bytes switches).discard

/-- Carries out operations in order, going on after one that traps: the decoder that is reached and
all events. -/
def answerAll (d : Decoder ω) : List (Request ω) → Decoder ω × List (Event ω)
  | [] => (d, [])
  | r :: rs =>
    let step := d.answer r
    let (last, events) := answerAll step.decoder rs
    (last, step.events ++ events)

variable {d : Decoder ω}

/-! ### Registration -/

/-- A list that an observer is put into near the first occurrence of another. -/
theorem perm_insert (os : List ω) (o anchor : ω) (n : Nat) :
    ((os.span (· ≠ anchor)).1 ++ (os.span (· ≠ anchor)).2.take n ++
      o :: (os.span (· ≠ anchor)).2.drop n).Perm (o :: os) := by
  rw [List.span_eq_takeWhile_dropWhile]
  refine List.perm_middle.trans (.cons o ?_)
  rw [List.append_assoc, List.take_append_drop, List.takeWhile_append_dropWhile]

/-- An observer that is registered joins the observers that are, wherever it is put. -/
theorem exists_register (d : Decoder ω) {p : Primitive ω} {o : ω} (h : p.registers? = some o) :
    ∃ os : List ω, d.perform p = d.register o os ∧ os.Perm (o :: d.observers) := by
  cases p with
  | append p =>
    obtain rfl := Option.some.inj h
    exact ⟨_, rfl, List.perm_append_singleton p d.observers⟩
  | prepend p =>
    obtain rfl := Option.some.inj h
    exact ⟨_, rfl, .refl _⟩
  | insertBefore p anchor =>
    obtain rfl := Option.some.inj h
    have perm := perm_insert d.observers p anchor 0
    rw [List.take_zero, List.append_nil, List.drop_zero] at perm
    exact ⟨_, rfl, perm⟩
  | insertAfter p anchor =>
    obtain rfl := Option.some.inj h
    exact ⟨_, rfl, perm_insert d.observers p anchor 1⟩
  | _ => cases h

/-! ### An operation is its primitives -/

/-- Primitives are performed one after another. -/
theorem performAll_cons (p : Primitive ω) (ps : List (Primitive ω)) :
    d.performAll (p :: ps) = (d.perform p).andThen (performAll · ps) := rfl

/-- One primitive alone. -/
theorem performAll_singleton (p : Primitive ω) : d.performAll [p] = d.perform p := by
  rw [performAll_cons, Step.andThen]
  cases h : d.perform p with
  | mk decoder events result =>
    cases result with
    | error t => rfl
    | ok u => simp [performAll]

/-- Primitives are done in parts. -/
theorem performAll_append (ps qs : List (Primitive ω)) :
    d.performAll (ps ++ qs) = (d.performAll ps).andThen (performAll · qs) := by
  induction ps generalizing d with
  | nil => simp [performAll, Step.andThen]
  | cons p ps ih =>
    rw [List.cons_append, performAll_cons, performAll_cons]
    cases h : (d.perform p).result with
    | error t => simp [Step.andThen, h]
    | ok u =>
      simp only [Step.andThen, h, ih]
      cases ((d.perform p).decoder.performAll ps).result with
      | error t => rfl
      | ok v => simp

/-- Switches never trap. -/
theorem performAll_switches (isas : List Isa) :
    d.performAll (isas.map .setIsa) =
      { decoder := (d.switchAll isas).1, events := (d.switchAll isas).2, result := .ok () } := by
  induction isas generalizing d with
  | nil => rfl
  | cons isa isas ih =>
    rw [List.map_cons, performAll_cons]
    simp only [perform, setIsa, Step.andThen, ih]
    rfl

/-- Words are decoded by primitives, word by word. -/
theorem discard_decodeWords (words : List Word) (offset : Nat) (switches : SwitchMap) :
    (d.decodeWords words offset switches).discard =
      d.performAll (Request.ofWords words offset switches) := by
  induction words generalizing d offset switches with
  | nil => rfl
  | cons w words ih =>
    rw [decodeWords, Request.ofWords]
    generalize switches.span _ = parts
    obtain ⟨due, later⟩ := parts
    have switched : due.map (fun s => (.setIsa s.2 : Primitive ω)) =
        (due.map (·.2)).map .setIsa := by
      rw [List.map_map]
      rfl
    dsimp only
    rw [switched, performAll_append, performAll_switches, Step.andThen]
    dsimp only
    generalize d.switchAll _ = reached
    obtain ⟨d, told⟩ := reached
    dsimp only
    rw [performAll_cons, perform, Step.andThen, Step.discard, Step.discard]
    cases h : (d.decode w).result with
    | error t => simp [Except.map]
    | ok c =>
      have rest := ih (d := (d.decode w).decoder) (offset + 4) later
      simp only [Except.map, ← rest, Step.discard]
      cases ((d.decode w).decoder.decodeWords words (offset + 4) later).result with
      | error t => simp
      | ok n => simp

/-- **An operation is its primitives.** The decoder that it reaches, the events and whether it traps
are those of its primitives, one after another until one of them traps. -/
theorem answer_eq_performAll (r : Request ω) : d.answer r = d.performAll r.primitives := by
  cases r with
  | primitive p => exact (performAll_singleton p).symm
  | decodeAs w isa =>
    rw [Request.primitives, performAll_cons, Step.andThen]
    simp only [performAll_singleton]
    rfl
  | decodeRange bytes switches => exact discard_decodeWords _ 0 switches

end Decoder

end AArch64
