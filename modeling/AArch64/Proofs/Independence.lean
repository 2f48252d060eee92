import AArch64.Proofs.Requests

/-!
# Observers do not see each other

What an observer is told depends on its own registrations, on the instruction sets and on the words
that are decoded, not on who else is registered, and neither do the answers of a decoder. To take
all other observers out of a decoder is a simulation: each operation does to the decoder that is
left what it does to the whole one, as far as the one observer and the answers can tell.

## Main definitions

* `AArch64.Event.view`, `AArch64.Decoder.only` — the events and the registrations of one observer.
* `AArch64.Request.alone?` — an operation without the other observers.
* `AArch64.Decoder.reports` — what the decoding operations of a run hand back.

## Main results

* `AArch64.Decoder.decodeWords_only` — decoding does the same for one observer alone.
* `AArch64.Decoder.answer_only`, `AArch64.Decoder.report?_only` — so does every operation.
* `AArch64.Decoder.view_answerAll` — so does every run.
-/

set_option autoImplicit false

namespace AArch64

variable {ω : Type} [DecidableEq ω]

/-! ## One observer of many -/

/-- What an observer is told, in order. -/
def Event.view (o : ω) (es : List (Event ω)) : List (Event ω) :=
  es.filter (·.observer = o)

/-- A decoder with the registrations of one observer. -/
def Decoder.only (o : ω) (d : Decoder ω) : Decoder ω :=
  { d with observers := d.observers.filter (· = o) }

/-- A step as one observer sees it. -/
def Step.only {ρ : Type} (o : ω) (s : Step ω ρ) : Step ω ρ :=
  { s with decoder := s.decoder.only o, events := Event.view o s.events }

/-- A step that does nothing. -/
def Step.still (d : Decoder ω) : Step ω Unit where
  decoder := d
  events := []
  result := .ok ()

/-- An operation without the other observers: their registrations and removals are left out, and the
one observer is appended where it was to be put next to another. -/
def Request.alone? (o : ω) : Request ω → Option (Request ω)
  | .primitive (.append p) => if p = o then some (.primitive (.append o)) else none
  | .primitive (.prepend p) => if p = o then some (.primitive (.prepend o)) else none
  | .primitive (.insertBefore p _) => if p = o then some (.primitive (.append o)) else none
  | .primitive (.insertAfter p _) => if p = o then some (.primitive (.append o)) else none
  | .primitive (.remove p) => if p = o then some (.primitive (.remove o)) else none
  | r => some r

/-! ## What decoding hands back -/

/-- The answer of a decoding operation. -/
inductive Decoder.Reply
  /-- The category of a word. -/
  | category (c : Category)
  /-- The number of words of a range. -/
  | count (n : Nat)

/-- The answer of a decoding operation, and where it leaves the decoder. -/
structure Decoder.Report where
  /-- The answer, unless the operation traps. -/
  result : Except Trap Decoder.Reply
  /-- The instruction set afterwards. -/
  isa : Isa
  /-- The position afterwards. -/
  position : Nat

/-- The report of a step. -/
def Step.report {ρ : Type} (s : Step ω ρ) (reply : ρ → Decoder.Reply) :
    Decoder.Report where
  result := s.result.map reply
  isa := s.decoder.isa
  position := s.decoder.position

namespace Decoder

/-- The report of an operation that decodes. -/
def report? (d : Decoder ω) : Request ω → Option Report
  | .primitive (.decode w) => some ((d.decode w).report .category)
  | .primitive _ => none
  | .decodeAs w isa => some ((d.decodeAs w isa).report .category)
  | .decodeRange bytes switches => some ((d.decodeRange bytes switches).report .count)

/-- The reports of operations that are carried out in order. -/
def reports (d : Decoder ω) : List (Request ω) → List Report
  | [] => []
  | r :: rs => (d.report? r).toList ++ reports (d.answer r).decoder rs

variable {o p : ω} {d : Decoder ω}

/-- The observers that are left are those that are this one. -/
@[simp]
theorem only_observers : (d.only o).observers = d.observers.filter (· = o) := rfl

/-- The instruction set stays. -/
@[simp]
theorem only_isa : (d.only o).isa = d.isa := rfl

/-- The position stays. -/
@[simp]
theorem only_position : (d.only o).position = d.position := rfl

/-! ## Registration -/

/-- It does not matter where a list that holds one observer only is given a further entry. -/
theorem prepend_only (d : Decoder ω) (o : ω) : (d.only o).prepend o = (d.only o).append o := by
  have last : o :: d.observers.filter (· = o) = d.observers.filter (· = o) ++ [o] := by
    rw [List.filter_eq, ← List.replicate_succ, List.replicate_succ']
  rw [prepend, append, only_observers, last]

/-- Wherever an observer is put into the list, for one observer alone it is put at the end, or
nothing happens if it is another one. -/
theorem only_register {os : List ω} (h : os.Perm (p :: d.observers)) :
    (d.register p os).only o =
      if p = o then (d.only o).append o
      else .still (d.only o) := by
  have registered : os.filter (· = o) = (p :: d.observers).filter (· = o) := by
    rw [List.filter_eq, List.filter_eq, h.count_eq]
  split
  next hp =>
    subst hp
    rw [List.filter_cons_of_pos (by simp)] at registered
    rw [← prepend_only, prepend, only_observers, ← registered]
    simp [Step.only, register, only, Event.view, Event.observer]
  next hp =>
    simp [Step.only, Step.still, register, only, registered, hp, Event.view, Event.observer]

/-- To take another observer back is nothing to the one observer. -/
theorem only_remove (d : Decoder ω) (o p : ω) :
    (d.remove p).only o =
      if p = o then (d.only o).remove o
      else .still (d.only o) := by
  by_cases hp : p = o
  · subst hp
    simp [Step.only, remove, only, Event.view, Bool.and_comm]
  · have kept : (fun a => decide (a = o) && !decide (a = p)) = fun a => decide (a = o) := by
      funext a
      by_cases ha : a = o
      · simp [ha, Ne.symm hp]
      · simp [ha]
    simp [Step.only, Step.still, remove, only, hp, Event.view, kept]

/-! ## Decoding -/

/-- Nobody but the observers of the decoder is told of a switch. -/
theorem switchTo_only (d : Decoder ω) (o : ω) (isa : Isa) :
    (d.only o).switchTo isa = ((d.switchTo isa).1.only o, Event.view o (d.switchTo isa).2) := by
  rw [switchTo, switchTo, only_isa]
  split
  · rfl
  · rw [Event.view, List.filter_map]
    rfl

/-- Nor is anybody else told of several switches. -/
theorem switchAll_only (d : Decoder ω) (o : ω) (isas : List Isa) :
    (d.only o).switchAll isas =
      ((d.switchAll isas).1.only o, Event.view o (d.switchAll isas).2) := by
  induction isas generalizing d with
  | nil => rfl
  | cons isa isas ih =>
    simp only [switchAll, switchTo_only, ih, Event.view, List.filter_append]

/-- A word is shown to an observer as often as it is registered. -/
theorem decode_only (d : Decoder ω) (o : ω) (w : Word) :
    (d.only o).decode w = (d.decode w).only o := by
  rw [decode, decode, only_position]
  split
  · rw [Step.only, Event.view, List.filter_map]
    rfl
  · rfl

/-- Decoding in an instruction set does the same for one observer alone. -/
theorem decodeAs_only (d : Decoder ω) (o : ω) (w : Word) (isa : Isa) :
    (d.only o).decodeAs w isa = (d.decodeAs w isa).only o := by
  simp only [decodeAs, switchTo_only, decode_only, Step.only, Event.view, List.filter_append]

/-- Decoding a range does the same for one observer alone, word by word. -/
theorem decodeWords_only (d : Decoder ω) (o : ω) (words : List Word) (offset : Nat)
    (switches : SwitchMap) :
    (d.only o).decodeWords words offset switches =
      (d.decodeWords words offset switches).only o := by
  induction words generalizing d offset switches with
  | nil => rfl
  | cons w words ih =>
    simp only [decodeWords, switchAll_only, decode_only]
    generalize (d.switchAll _).1 = reached
    have result : ((reached.decode w).only o).result = (reached.decode w).result := rfl
    rw [result]
    cases (reached.decode w).result with
    | error t => simp [Step.only, Event.view]
    | ok c =>
      have rest := ih (reached.decode w).decoder (offset + 4)
      simp [Step.only, Event.view, rest]

/-! ## Operations -/

/-- A primitive does the same for one observer alone, and nothing if it registers or takes back
another observer. -/
theorem perform_only (d : Decoder ω) (o : ω) (p : Primitive ω) :
    (d.perform p).only o =
      ((Request.primitive p).alone? o).elim (.still (d.only o)) (d.only o).answer := by
  cases hp : p.registers? with
  | some q =>
    obtain ⟨os, registered, perm⟩ := d.exists_register hp
    rw [registered, only_register perm]
    cases p with
    | append q' | insertBefore q' | insertAfter q' =>
      obtain rfl := Option.some.inj hp
      rw [Request.alone?]
      split <;> rfl
    | prepend q' =>
      obtain rfl := Option.some.inj hp
      rw [Request.alone?]
      split
      · exact (prepend_only d o).symm
      · rfl
    | _ => cases hp
  | none =>
    cases p with
    | remove q =>
      rw [perform, only_remove, Request.alone?]
      split <;> rfl
    | setPosition position => rfl
    | setIsa isa =>
      show _ = (d.only o).setIsa isa
      rw [setIsa, switchTo_only]
      rfl
    | decode w => exact congrArg Step.discard (decode_only d o w).symm
    | _ => cases hp

/-- An operation does the same for one observer alone. -/
theorem answer_only (d : Decoder ω) (o : ω) (r : Request ω) :
    (d.answer r).only o = (r.alone? o).elim (.still (d.only o)) (d.only o).answer := by
  cases r with
  | primitive p => exact perform_only d o p
  | decodeAs w isa => exact congrArg Step.discard (decodeAs_only d o w isa).symm
  | decodeRange bytes switches =>
    exact congrArg Step.discard (decodeWords_only d o _ 0 switches).symm

/-- Operations hand back the same for one observer alone. -/
theorem report?_only (d : Decoder ω) (o : ω) (r : Request ω) :
    (r.alone? o).bind (d.only o).report? = d.report? r := by
  cases r with
  | primitive p =>
    cases p with
    | decode w =>
      show some (((d.only o).decode w).report .category) = _
      rw [decode_only]
      rfl
    | setPosition | setIsa => rfl
    | _ =>
      rw [Request.alone?]
      split <;> rfl
  | decodeAs w isa =>
    show some (((d.only o).decodeAs w isa).report .category) = _
    rw [decodeAs_only]
    rfl
  | decodeRange bytes switches =>
    show some (((d.only o).decodeWords _ 0 switches).report .count) = _
    rw [decodeWords_only]
    rfl

/-! ## Runs -/

/-- A run of requests does the same for one observer alone. -/
theorem answerAll_only (d : Decoder ω) (o : ω) (rs : List (Request ω)) :
    (d.only o).answerAll (rs.filterMap (Request.alone? o)) =
      ((d.answerAll rs).1.only o, Event.view o (d.answerAll rs).2) := by
  induction rs generalizing d with
  | nil => rfl
  | cons r rs ih =>
    have step := answer_only d o r
    have events : Event.view o (d.answerAll (r :: rs)).2 =
        ((d.answer r).only o).events ++ Event.view o ((d.answer r).decoder.answerAll rs).2 :=
      List.filter_append _ _
    have rest : ((d.answer r).only o).decoder.answerAll (rs.filterMap (Request.alone? o)) = _ :=
      ih (d.answer r).decoder
    rw [step] at events rest
    cases hr : r.alone? o with
    | none =>
      rw [hr] at events rest
      rw [List.filterMap_cons_none hr, events]
      exact rest
    | some r' =>
      rw [hr] at events rest
      rw [List.filterMap_cons_some hr, events]
      exact congrArg (fun run => (run.1, ((d.only o).answer r').events ++ run.2)) rest

/-- It reports the same, too. -/
theorem reports_only (d : Decoder ω) (o : ω) (rs : List (Request ω)) :
    (d.only o).reports (rs.filterMap (Request.alone? o)) = d.reports rs := by
  induction rs generalizing d with
  | nil => rfl
  | cons r rs ih =>
    have rest : ((d.answer r).only o).decoder.reports (rs.filterMap (Request.alone? o)) = _ :=
      ih (d.answer r).decoder
    rw [answer_only] at rest
    rw [reports, ← report?_only d o r, ← rest]
    cases hr : r.alone? o with
    | none =>
      rw [List.filterMap_cons_none hr]
      rfl
    | some r' =>
      rw [List.filterMap_cons_some hr]
      rfl

/-- **An observer does not see the others.** Operations are carried out by a decoder without
observers, and once more without the registrations and the removals of all observers but one, which
is appended wherever it was to be put before or after another. It is told the same in both runs, the
decoding operations hand back the same and leave the decoder at the same place, and in the end it
is at the same place as well.

**Proof sketch.** Taking the other observers out of a decoder commutes with every operation
(`AArch64.Decoder.answer_only`): the list that is left holds one observer only, so that it does not
matter where a further one is put, and none of the operations reads the list for anything but whom
it tells. The rest is induction on the operations. -/
theorem view_answerAll (g : Graph) (isa : Isa) (position : Nat) (o : ω) (rs : List (Request ω)) :
    let d : Decoder ω := { graph := g, observers := [], isa, position }
    let alone := rs.filterMap (Request.alone? o)
    (d.answerAll alone).2 = Event.view o (d.answerAll rs).2 ∧
      d.reports alone = d.reports rs ∧
      (d.answerAll alone).1.isa = (d.answerAll rs).1.isa ∧
      (d.answerAll alone).1.position = (d.answerAll rs).1.position := by
  intro d alone
  have run : d.answerAll alone = ((d.answerAll rs).1.only o, Event.view o (d.answerAll rs).2) :=
    answerAll_only d o rs
  rw [run]
  exact ⟨rfl, reports_only d o rs, rfl, rfl⟩

end Decoder

end AArch64
