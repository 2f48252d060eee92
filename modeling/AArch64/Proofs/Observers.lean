import AArch64.EncodingIndex
import AArch64.Proofs.Requests

/-!
# Observers know the instruction set

A decoder tells an observer the instruction set when the observer is registered and whenever the
instruction set changes. So what every registered observer was told last is the current instruction
set: between two operations, and also at every visit in the middle of one.

## Main definitions

* `AArch64.Event.lastTold` — the instruction set that an observer was told last.
* `AArch64.Decoder.Informed` — every registered observer was told the current one last.
* `AArch64.Decoder.Visits` — whom a primitive visits with what.

## Main results

* `AArch64.Decoder.Informed.perform`, `AArch64.Decoder.Informed.performAll` — observers stay
  informed over a primitive and over a list of primitives.
* `AArch64.Decoder.informed_answerAll` — observers are informed after all operations and at every
  visit.
-/

set_option autoImplicit false

namespace AArch64

variable {ω : Type} [DecidableEq ω]

/-! ## What an observer was told last -/

namespace Event

/-- The instruction set that an observer was told last, if it was told one. -/
def lastTold (o : ω) (es : List (Event ω)) : Option Isa :=
  (es.filterMap fun
    | .setIsa o' isa => if o' = o then some isa else none
    | .visit _ _ => none).getLast?

variable {o : ω} {es fs : List (Event ω)}

/-- What an observer was told last is what it was told later, if it was told anything later. -/
theorem lastTold_append (o : ω) (es fs : List (Event ω)) :
    lastTold o (es ++ fs) = (lastTold o fs).or (lastTold o es) := by
  rw [lastTold, List.filterMap_append, List.getLast?_append]
  rfl

/-- Visits tell no instruction set. -/
theorem lastTold_visits (o : ω) {es : List (Event ω)}
    (h : ∀ e ∈ es, ∃ o' i, e = .visit o' i) : lastTold o es = none := by
  rw [lastTold, List.getLast?_eq_none_iff, List.filterMap_eq_nil_iff]
  intro e he
  obtain ⟨o', i, rfl⟩ := h e he
  rfl

/-- Everyone who is told an instruction set at once was told it last. -/
theorem lastTold_setIsa {os : List ω} (ho : o ∈ os) (isa : Isa) :
    lastTold o (os.map (.setIsa · isa)) = some isa := by
  rw [lastTold, List.filterMap_map]
  generalize htold : os.filterMap _ = told
  have same : ∀ x ∈ told, x = isa := by
    intro x hx
    rw [← htold] at hx
    obtain ⟨o', -, hx⟩ := List.mem_filterMap.1 hx
    dsimp only [Function.comp_apply] at hx
    split at hx
    · exact (Option.some.inj hx).symm
    · cases hx
  have some : isa ∈ told := by
    rw [← htold]
    exact List.mem_filterMap.2 ⟨o, ho, if_pos rfl⟩
  cases last : told.getLast? with
  | none => simp [List.getLast?_eq_none_iff.1 last] at some
  | some x => rw [same x (List.mem_of_getLast? last)]

end Event

namespace Decoder

variable {d : Decoder ω} {told es : List (Event ω)}

/-- Every registered observer was told the current instruction set last. -/
def Informed (d : Decoder ω) (told : List (Event ω)) : Prop :=
  ∀ o ∈ d.observers, Event.lastTold o told = some d.isa

/-- Visits keep observers informed. -/
theorem Informed.visits (h : d.Informed told) (hes : ∀ e ∈ es, ∃ o i, e = .visit o i) :
    d.Informed (told ++ es) := by
  intro o ho
  rw [Event.lastTold_append, Event.lastTold_visits o hes]
  exact h o ho

/-- A new observer is told, and the others know. -/
theorem Informed.register (h : d.Informed told) {o : ω} {observers : List ω}
    (hobservers : ∀ q ∈ observers, q = o ∨ q ∈ d.observers) :
    (d.register o observers).decoder.Informed (told ++ (d.register o observers).events) := by
  intro q hq
  have first : Event.lastTold q [.setIsa o d.isa] = if o = q then some d.isa else none := by
    rw [Event.lastTold]
    split <;> simp_all
  show Event.lastTold q (told ++ [.setIsa o d.isa]) = some d.isa
  rw [Event.lastTold_append, first]
  rcases hobservers q hq with rfl | known
  · rw [if_pos rfl]
    rfl
  · split
    · rfl
    · exact h q known

/-- A switch tells everyone. -/
theorem Informed.switchTo (h : d.Informed told) (isa : Isa) :
    (d.switchTo isa).1.Informed (told ++ (d.switchTo isa).2) := by
  rw [Decoder.switchTo]
  split
  · rwa [List.append_nil]
  · intro o ho
    rw [Event.lastTold_append, Event.lastTold_setIsa ho]
    rfl

/-! ## Primitives -/

/-- Observers stay informed over a primitive. -/
theorem Informed.perform (h : d.Informed told) (p : Primitive ω) :
    (d.perform p).decoder.Informed (told ++ (d.perform p).events) := by
  cases hp : p.registers? with
  | some o =>
    obtain ⟨os, registered, perm⟩ := d.exists_register hp
    rw [registered]
    exact h.register fun q hq => List.mem_cons.1 (perm.mem_iff.1 hq)
  | none =>
    cases p with
    | remove o =>
      intro q hq
      rw [Decoder.perform, remove, List.append_nil]
      exact h q (List.mem_filter.1 hq).1
    | setPosition position =>
      intro q hq
      rw [Decoder.perform, setPosition, List.append_nil]
      exact h q hq
    | setIsa isa => exact h.switchTo isa
    | decode w =>
      rw [Decoder.perform, decode]
      split
      · exact Informed.visits (d := d) h fun e he => by
          obtain ⟨o, -, rfl⟩ := List.mem_map.1 he
          exact ⟨o, _, rfl⟩
      · exact (List.append_nil told).symm ▸ h
    | _ => cases hp

/-- No primitive changes the graph. -/
theorem graph_perform (d : Decoder ω) (p : Primitive ω) :
    (d.perform p).decoder.graph = d.graph := by
  cases p with
  | setIsa isa =>
    show (d.switchTo isa).1.graph = d.graph
    rw [switchTo]
    split <;> rfl
  | decode w =>
    show (d.decode w).decoder.graph = d.graph
    rw [decode]
    split <;> rfl
  | _ => rfl

/-- Whom a primitive visits, after some events: a word that is decoded is shown to every entry of
the list of observers, in order, with its category, the instruction set and the position, and all
registered observers know the instruction set at each of these visits; at the end of the stream, and
by the other primitives, nobody is visited. -/
def Visits (d : Decoder ω) (told : List (Event ω)) : Primitive ω → Prop
  | .decode w =>
    (d.decode w).events =
        (if d.position + 4 < 2 ^ 64 then
          d.observers.map (.visit · ⟨w, d.graph.classify w d.isa, d.isa, d.position⟩)
        else []) ∧
      ∀ seen, seen <+: (d.decode w).events → d.Informed (told ++ seen)
  | p => ∀ o i, .visit o i ∉ (d.perform p).events

/-- What an informed decoder does. -/
theorem Informed.visits_perform (h : d.Informed told) (p : Primitive ω) : d.Visits told p := by
  cases p with
  | decode w =>
    have visits : ∀ e ∈ (d.decode w).events, ∃ o i, e = .visit o i := by
      intro e he
      rw [decode] at he
      split at he
      · obtain ⟨o, -, rfl⟩ := List.mem_map.1 he
        exact ⟨o, _, rfl⟩
      · cases he
    refine ⟨?_, fun seen hseen => h.visits fun e he => visits e (hseen.subset he)⟩
    rw [decode]
    split <;> rfl
  | setIsa isa =>
    intro o i
    show Event.visit o i ∉ (d.switchTo isa).2
    rw [Decoder.switchTo]
    split <;> simp
  | remove | setPosition => exact fun o i => List.not_mem_nil
  | append | prepend | insertBefore | insertAfter =>
    intro o i hi
    cases List.mem_singleton.1 hi

/-! ## Operations -/

/-- What holds of a decoder and of what was told holds after primitives if each of them keeps it. -/
theorem performAll_induction {P : Decoder ω → List (Event ω) → Prop}
    (hP : ∀ d told p, P d told → P (d.perform p).decoder (told ++ (d.perform p).events))
    (ps : List (Primitive ω)) (h : P d told) :
    P (d.performAll ps).decoder (told ++ (d.performAll ps).events) := by
  induction ps generalizing d told with
  | nil => simpa [performAll] using h
  | cons p ps ih =>
    rw [performAll_cons, Step.andThen]
    cases (d.perform p).result with
    | error t => exact hP d told p h
    | ok u =>
      dsimp only
      rw [← List.append_assoc]
      exact ih (hP d told p h)

/-- The graph is the one of the start, and observers are informed. -/
theorem informed_performAll {g : Graph} (ps : List (Primitive ω)) (hg : d.graph = g)
    (h : d.Informed told) :
    (d.performAll ps).decoder.graph = g ∧
      (d.performAll ps).decoder.Informed (told ++ (d.performAll ps).events) :=
  performAll_induction (P := fun d told => d.graph = g ∧ d.Informed told)
    (fun d _ p h => ⟨(d.graph_perform p).trans h.1, h.2.perform p⟩) ps ⟨hg, h⟩

/-- Nor does a run of requests, which keeps observers informed, too. -/
theorem informed_reached {g : Graph} (rs : List (Request ω)) (hg : d.graph = g)
    (h : d.Informed told) :
    (d.answerAll rs).1.graph = g ∧ (d.answerAll rs).1.Informed (told ++ (d.answerAll rs).2) := by
  induction rs generalizing d told with
  | nil => simpa [answerAll] using ⟨hg, h⟩
  | cons r rs ih =>
    obtain ⟨graph, informed⟩ := informed_performAll r.primitives hg h
    rw [← answer_eq_performAll] at graph informed
    rw [answerAll, ← List.append_assoc]
    exact ih graph informed

/-- **Observers always know the instruction set.** Let a decoder over some graph have carried out
any operations, with observers registered any number of times, taken back and registered again, and
with operations that stopped at the end of the stream. Then every registered observer was told the
current instruction set last. A further operation is a list of primitives that are done one after
another until one traps, and before each of them the observers are informed again; if it decodes a
word, every entry of the list of observers is visited once, in order, with the category of the word
in the current instruction set, this instruction set and the position, and the observers are
informed at each of the visits; if it does anything else, nobody is visited.

**Proof sketch.** A decoder without observers is informed. Registering tells the new observer,
switching tells everyone, and the others of the primitives neither tell anyone nor change the
instruction set (`AArch64.Decoder.Informed.perform`). The rest is induction on the primitives and
the operations. -/
theorem informed_answerAll (g : Graph) (rs : List (Request ω)) (r : Request ω) :
    let d := ((new g).answerAll rs).1
    let told := ((new g).answerAll rs).2
    d.Informed told ∧ d.answer r = d.performAll r.primitives ∧
      ∀ ps p qs, r.primitives = ps ++ p :: qs → (d.performAll ps).result = .ok () →
        let reached := (d.performAll ps).decoder
        let before := told ++ (d.performAll ps).events
        reached.graph = g ∧ reached.Informed before ∧ reached.Visits before p := by
  have start : (new g : Decoder ω).Informed [] := fun o ho => nomatch ho
  obtain ⟨graph, informed⟩ := informed_reached rs rfl start
  rw [List.nil_append] at informed
  refine ⟨informed, answer_eq_performAll r, fun ps p qs _ _ => ?_⟩
  obtain ⟨graph', informed'⟩ := informed_performAll ps graph informed
  exact ⟨graph', informed', informed'.visits_perform p⟩

/-- Two observers, one of them registered twice, and two words to the end of the stream. -/
def nearEnd : List (Request Nat) :=
  [.primitive (.append 0), .primitive (.append 1), .primitive (.prepend 0),
    .primitive (.setPosition (2 ^ 64 - 8))]

/-- A range of two words, with a switch before the second one. -/
def switchedRange : Request Nat :=
  .decodeRange (List.replicate 8 0) [(4, .c64)]

/-- The second word is not decoded, and its switch is known to the observers all the same. -/
theorem informed_answerAll_switchedRange :
    let d := ((new EncodingIndex.graph).answerAll nearEnd).1
    let told := ((new EncodingIndex.graph).answerAll nearEnd).2
    let ps := [.decode 0, .setIsa .c64]
    switchedRange.primitives = ps ++ .decode 0 :: [] ∧ (d.performAll ps).result = .ok () ∧
      (d.performAll ps).decoder.isa = .c64 ∧
      (d.performAll ps).decoder.Informed (told ++ (d.performAll ps).events) ∧
      (d.answer switchedRange).result = .error .overflow := by
  have primitives : switchedRange.primitives = [.decode 0, .setIsa .c64] ++ .decode 0 :: [] := rfl
  have returns : (((new EncodingIndex.graph).answerAll nearEnd).1.performAll
      [.decode 0, .setIsa .c64]).result = .ok () := rfl
  obtain ⟨-, -, moments⟩ := informed_answerAll EncodingIndex.graph nearEnd switchedRange
  exact ⟨primitives, returns, rfl, (moments _ _ _ primitives returns).2.1, rfl⟩

end Decoder

end AArch64
