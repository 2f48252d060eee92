import AArch64.CodeBuffer
import AArch64.Graph
import AArch64.Instruction

/-!
# Instruction streams

A decoder reads a stream of words. It has a position in the stream and a current instruction set,
classifies each word and reports it to its observers in order. The instruction set changes by
request only, and every observer is told of it before the next word: on registration, and whenever
it changes.

Observers are known by name and told by *events*; an operation answers the events that it causes,
in order. An observer that is registered more than once is told once for each registration.

## Main definitions

* `AArch64.Event` — what an observer is told.
* `AArch64.Decoder` — the state, and `AArch64.Step`, what an operation does.
* `AArch64.Decoder.append`, `AArch64.Decoder.prepend`, `AArch64.Decoder.insertBefore`,
  `AArch64.Decoder.insertAfter`, `AArch64.Decoder.remove` — registration.
* `AArch64.Decoder.setIsa`, `AArch64.Decoder.decode`, `AArch64.Decoder.decodeAs`,
  `AArch64.Decoder.decodeRange` — decoding.
* `AArch64.SwitchMap` — instruction sets by offset.
-/

set_option autoImplicit false

namespace AArch64

/-! ## Switches of the instruction set -/

/-- Instruction sets and the offsets from which on they are in effect, by increasing offset. -/
abbrev SwitchMap := List (Nat × Isa)

namespace SwitchMap

/-- Puts a switch in its place. A switch at the same offset is replaced. -/
def insert (offset : Nat) (isa : Isa) : SwitchMap → SwitchMap
  | [] => [(offset, isa)]
  | s :: rest =>
    if offset < s.1 then (offset, isa) :: s :: rest
    else if offset = s.1 then (offset, isa) :: rest
    else s :: insert offset isa rest

/-- The map of switches that are put in one after another. -/
def ofList (switches : List (Nat × Isa)) : SwitchMap :=
  switches.foldl (fun m s => insert s.1 s.2 m) []

/-- Puts a switch in its place unless there is one at the same offset. -/
def insertIfNew (offset : Nat) (isa : Isa) (m : SwitchMap) : SwitchMap :=
  if m.any (·.1 = offset) then m else insert offset isa m

end SwitchMap

/-! ## Events -/

/-- What an observer is told. -/
inductive Event (ω : Type)
  /-- The instruction set is `isa` from now on. -/
  | setIsa (observer : ω) (isa : Isa)
  /-- An instruction was decoded. -/
  | visit (observer : ω) (instruction : Instruction)

/-- The observer that is told. -/
def Event.observer {ω : Type} : Event ω → ω
  | .setIsa o _ => o
  | .visit o _ => o

/-- Who is visited with what, if anyone is. -/
def Event.visit? {ω : Type} : Event ω → Option (ω × Instruction)
  | .setIsa _ _ => none
  | .visit o i => some (o, i)

/-! ## Decoders -/

/-- The state of a decoder whose observers are named by `ω`. -/
structure Decoder (ω : Type) where
  /-- The graph that words are classified by. -/
  graph : Graph
  /-- The observers, in the order in which they are told. -/
  observers : List ω
  /-- The current instruction set. -/
  isa : Isa
  /-- The byte offset of the next word. -/
  position : Nat

/-- What an operation does: the state that it reaches, the events on the way, and its answer. -/
structure Step (ω ρ : Type) where
  /-- The state afterwards. -/
  decoder : Decoder ω
  /-- The events, in order. -/
  events : List (Event ω)
  /-- The answer. -/
  result : Except Trap ρ

namespace Decoder

variable {ω : Type} [DecidableEq ω]

/-- A decoder at the start of a stream, in A64 and without observers. -/
def new (graph : Graph) : Decoder ω :=
  { graph, observers := [], isa := .a64, position := 0 }

/-! ## Registration -/

/-- Registers an observer by putting it into the list of observers. It is told the current
instruction set. -/
def register (d : Decoder ω) (o : ω) (observers : List ω) : Step ω Unit :=
  { decoder := { d with observers }, events := [.setIsa o d.isa], result := .ok () }

/-- Registers an observer after all others. -/
def append (d : Decoder ω) (o : ω) : Step ω Unit :=
  d.register o (d.observers ++ [o])

/-- Registers an observer before all others. -/
def prepend (d : Decoder ω) (o : ω) : Step ω Unit :=
  d.register o (o :: d.observers)

/-- Registers an observer right before the first registration of another, or after all others if
there is none. -/
def insertBefore (d : Decoder ω) (o anchor : ω) : Step ω Unit :=
  let (before, rest) := d.observers.span (· ≠ anchor)
  d.register o (before ++ o :: rest)

/-- Registers an observer right after the first registration of another, or after all others if
there is none. -/
def insertAfter (d : Decoder ω) (o anchor : ω) : Step ω Unit :=
  let (before, rest) := d.observers.span (· ≠ anchor)
  d.register o (before ++ rest.take 1 ++ o :: rest.drop 1)

/-- Takes every registration of an observer back. -/
def remove (d : Decoder ω) (o : ω) : Step ω Unit :=
  { decoder := { d with observers := d.observers.filter (· ≠ o) }
    events := []
    result := .ok () }

/-! ## Decoding -/

/-- Moves the stream. -/
def setPosition (d : Decoder ω) (position : Nat) : Step ω Unit :=
  { decoder := { d with position }, events := [], result := .ok () }

/-- The decoder in an instruction set, and what its observers are told: an instruction set that is
the current one already is no news. -/
def switchTo (d : Decoder ω) (isa : Isa) : Decoder ω × List (Event ω) :=
  if isa = d.isa then (d, []) else ({ d with isa }, d.observers.map (.setIsa · isa))

/-- Changes the instruction set. -/
def setIsa (d : Decoder ω) (isa : Isa) : Step ω Unit :=
  let (decoder, events) := d.switchTo isa
  { decoder, events, result := .ok () }

/-- The instruction that a word at the current position is. -/
def instruction (d : Decoder ω) (w : Word) : Instruction where
  word := w
  category := d.graph.classify w d.isa
  isa := d.isa
  offset := d.position

/-- Decodes the next word. The stream ends at `2 ^ 64` bytes: a word that leaves no position after
it is not reported to any observer. -/
def decode (d : Decoder ω) (w : Word) : Step ω Category :=
  if d.position + 4 < 2 ^ 64 then
    { decoder := { d with position := d.position + 4 }
      events := d.observers.map (.visit · (d.instruction w))
      result := .ok (d.instruction w).category }
  else { decoder := d, events := [], result := .error .overflow }

/-- Changes the instruction set and decodes the next word. -/
def decodeAs (d : Decoder ω) (w : Word) (isa : Isa) : Step ω Category :=
  let (d, switched) := d.switchTo isa
  let step := d.decode w
  { step with events := switched ++ step.events }

/-- Switches to one instruction set after another. -/
def switchAll (d : Decoder ω) : (isas : List Isa) → Decoder ω × List (Event ω)
  | [] => (d, [])
  | isa :: isas =>
    let (d, events) := d.switchTo isa
    let (d, more) := switchAll d isas
    (d, events ++ more)

/-- Decodes words that start at byte offset `offset` of a range. The switches at or before a word
that have not been made yet are made before it. The answer is the number of words. -/
def decodeWords : (d : Decoder ω) → (words : List Word) → (offset : Nat) →
    (switches : SwitchMap) → Step ω Nat
  | d, [], _, _ => { decoder := d, events := [], result := .ok 0 }
  | d, w :: words, offset, switches =>
    let (due, later) := switches.span (·.1 ≤ offset)
    let (d, switched) := d.switchAll (due.map (·.2))
    let step := d.decode w
    match step.result with
    | .error t =>
      { decoder := step.decoder, events := switched ++ step.events, result := .error t }
    | .ok _ =>
      let rest := decodeWords step.decoder words (offset + 4) later
      { decoder := rest.decoder
        events := switched ++ step.events ++ rest.events
        result := rest.result.map (· + 1) }

/-- Decodes the whole words of a range of bytes. Switches count from the start of the range. -/
def decodeRange (d : Decoder ω) (bytes : List (BitVec 8)) (switches : SwitchMap) : Step ω Nat :=
  d.decodeWords (Word.listOfBytes bytes) 0 switches

end Decoder

end AArch64
