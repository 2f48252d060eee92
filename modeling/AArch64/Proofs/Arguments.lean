import AArch64.Proofs.Grammar
import Mathlib.Data.List.TakeDrop
import Mathlib.Data.List.TakeWhile

/-!
# What the arguments say

Reading accepts exactly the texts that are written as the grammar says and name at most one file and
one instruction set, and answers with the words and the switches in the order in which they are
written.

Reading defers a value until the next argument that stands for itself. The grammar knows nothing of
this: a value that is pending may as well be settled at once, as long as only the answer counts and
not which of two mistakes is reported.

## Main definitions

* `AArch64.Arguments.Progress.answer?` — what is read together with further texts says.

## Main results

* `AArch64.Arguments.Progress.answer?_of_settle` — a pending value may be settled at once.
* `AArch64.Arguments.read_eq_ok_iff` — which texts are accepted, and with which answer.
-/

set_option autoImplicit false

namespace AArch64

/-! ## Texts with `=` -/

namespace Value

/-- A text is split at its first `=`. -/
theorem splitAtEquals?_append {before after : List Char} (h : '=' ∉ before) :
    splitAtEquals? (before ++ '=' :: after) = some (before, after) := by
  have other : ∀ c ∈ before, decide (c ≠ '=') := fun c hc =>
    decide_eq_true (ne_of_mem_of_not_mem hc h)
  rw [splitAtEquals?, List.span_eq_takeWhile_dropWhile, List.takeWhile_append_of_pos other,
    List.dropWhile_append_of_pos other]
  simp

/-- A text that is split has an `=` in between. -/
theorem eq_append_of_splitAtEquals? {cs before after : List Char}
    (h : splitAtEquals? cs = some (before, after)) : cs = before ++ '=' :: after := by
  rw [splitAtEquals?, List.span_eq_takeWhile_dropWhile] at h
  have parts := List.takeWhile_append_dropWhile (p := fun c => decide (c ≠ '=')) (l := cs)
  have first := List.head?_dropWhile_not (fun c => decide (c ≠ '=')) cs
  cases rest : cs.dropWhile fun c => decide (c ≠ '=') with
  | nil => rw [rest] at h; cases h
  | cons c rest' =>
    rw [rest] at h first parts
    cases h
    obtain rfl : c = '=' := by simpa using first
    exact parts.symm

end Value

namespace Arguments

open Argument

namespace Progress

variable {p : Progress} {text : String}

/-! ## Answers -/

/-- The answer of what is accepted. -/
@[simp]
theorem toOption_ok {α : Type} (a : α) : (.ok a : Except ArgumentFault α).toOption = some a :=
  rfl

/-- There is no answer of what is refused. -/
@[simp]
theorem toOption_error {α : Type} (e : ArgumentFault) :
    (.error e : Except ArgumentFault α).toOption = none :=
  rfl

/-- The answer of what is accepted, as a computation ends with it. -/
@[simp]
theorem toOption_pure {α : Type} (a : α) : (pure a : Except ArgumentFault α).toOption = some a :=
  rfl

/-- The answer of a computation and then another one. -/
@[simp]
theorem toOption_bind {α β : Type} (x : Except ArgumentFault α) (f : α → Except ArgumentFault β) :
    (x >>= f).toOption = x.toOption.bind fun a => (f a).toOption := by
  cases x <;> rfl

/-- What the arguments that are read say together with further ones, if all of them are accepted. -/
def answer? (p : Progress) (argv : List String) : Option Arguments :=
  (do
    let p ← p.arguments argv
    return (← p.settle).settled : Except ArgumentFault Arguments).toOption

/-- Nothing is pending, and the arguments that are read say this. -/
def settledAt (a : Arguments) : Progress where
  settled := a
  hasInput := a.input?.isSome

/-- At the end of the arguments, the pending value is settled. -/
theorem answer?_nil (p : Progress) : p.answer? [] = p.settle.toOption.map (·.settled) := by
  cases h : p.settle <;> simp [answer?, arguments, h]

/-- One argument is read, and then the others. -/
theorem answer?_cons (p : Progress) (argv : List String) (h : text ≠ "--") :
    p.answer? (text :: argv) = (p.argument text).toOption.bind (·.answer? argv) := by
  rw [answer?, arguments, if_neg h, bind_assoc, toOption_bind]
  rfl

/-- After the separator, every argument is a positional. -/
theorem answer?_separator (p : Progress) (argv : List String) :
    p.answer? ("--" :: argv) = (argv.foldlM positional p).toOption.bind (·.answer? []) := by
  rw [answer?, arguments, if_pos rfl, toOption_bind]
  rfl

/-! ## Pending values -/

/-- Settling leaves nothing pending, and changes nothing else but what is settled. -/
theorem exists_of_settle {q : Progress} (h : p.settle = .ok q) :
    ∃ a, q = { settled := a, pending? := none, hasInput := p.hasInput } := by
  obtain ⟨settled, pending?, hasInput⟩ := p
  rw [settle] at h
  split at h
  · next nothing =>
    obtain rfl : pending? = none := nothing
    cases h
    exact ⟨settled, rfl⟩
  · cases h
  · next slot text some =>
    cases hstore : settled.store slot text with
    | error e => rw [hstore] at h; cases h
    | ok a => rw [hstore] at h; cases h; exact ⟨a, rfl⟩

/-- What is settled stays settled. -/
theorem settle_of_settle {q : Progress} (h : p.settle = .ok q) : q.settle = .ok q := by
  obtain ⟨a, rfl⟩ := exists_of_settle h
  rfl

/-- The answer that there is. -/
theorem ok_of_mem {α : Type} {x : Except ArgumentFault α} {b : α} (h : b ∈ x.toOption) :
    x = .ok b := by
  cases x with
  | error e => cases h
  | ok r => cases h; rfl

/-- Settling keeps in mind whether there was a positional. -/
theorem hasInput_of_settle {q : Progress} (h : p.settle = .ok q) : q.hasInput = p.hasInput := by
  obtain ⟨a, rfl⟩ := exists_of_settle h
  rfl

/-- What a reader of arguments answers does not depend on whether the pending value is settled
before it or by it. -/
def SettlesFirst (f : Progress → Except ArgumentFault Progress) (p : Progress) : Prop :=
  (f p).toOption = p.settle.toOption.bind fun q => (f q).toOption

/-- A reader that begins by settling settles first. -/
theorem SettlesFirst.settle_bind (f : Progress → Except ArgumentFault Progress) (p : Progress) :
    SettlesFirst (fun p => p.settle >>= f) p := by
  rw [SettlesFirst]
  cases h : p.settle with
  | error e => rfl
  | ok q => simp [Except.toOption, settle_of_settle h]

/-- A reader that refuses everything answers nothing either way. -/
theorem SettlesFirst.error (e : ArgumentFault) (p : Progress) :
    SettlesFirst (fun _ => .error e) p := by
  rw [SettlesFirst]
  cases p.settle <;> rfl

/-- An argument that starts with `--` settles the pending value. -/
theorem settlesFirst_long (name : String) (value? : Option String) (p : Progress) :
    SettlesFirst (·.long name value?) p := by
  unfold long
  by_cases value : value?.isSome
  · simp only [value, if_true]
    split
    case h_1 | h_2 | h_3 => exact .settle_bind _ p
    all_goals exact .error _ p
  · simp only [value]
    split
    case h_7 => exact .error _ p
    all_goals exact .settle_bind _ p

/-- An argument that starts with one `-` settles the pending value. -/
theorem settlesFirst_short (letter : Char) (rest : List Char) (p : Progress) :
    SettlesFirst (·.short letter rest) p := by
  unfold short
  split
  case h_6 => exact .error _ p
  all_goals exact .settle_bind _ p

/-- A positional settles the pending value. -/
theorem settlesFirst_positional (text : String) (p : Progress) :
    SettlesFirst (·.positional text) p := by
  cases has : p.hasInput with
  | false =>
    have settles : p.positional text = p.settle >>= fun q =>
        .ok { q with pending? := some (.input, some text), hasInput := true } := by
      rw [positional, has]
      rfl
    rw [SettlesFirst, settles, toOption_bind]
    refine Option.bind_congr fun q hq => ?_
    have hq := ok_of_mem hq
    rw [positional, hasInput_of_settle hq, has, settle_of_settle hq]
    rfl
  | true =>
    have refused : p.positional text = .error .unknown := by rw [positional, has]; rfl
    have refused' : ∀ q ∈ p.settle.toOption, q.positional text = .error .unknown := by
      intro q hq
      rw [positional, hasInput_of_settle (ok_of_mem hq), has]
      rfl
    rw [SettlesFirst, refused, Option.bind_congr fun q hq => congrArg _ (refused' q hq)]
    exact SettlesFirst.error .unknown p

/-- An argument that starts with `-` and goes on settles the pending value. -/
theorem settlesFirst_dashed {c : Char} {cs : List Char} (h : text.toList = '-' :: c :: cs)
    (p : Progress) : SettlesFirst (·.argument text) p := by
  simp only [argument, h]
  split
  · split
    · exact settlesFirst_long _ _ p
    · exact settlesFirst_long _ _ p
  · exact settlesFirst_short _ _ p
  · next _ other => exact absurd rfl (other c cs)

/-- A text that stands alone is read as it is. -/
theorem argument_of_standsAlone (h : StandsAlone text) (p : Progress) :
    p.argument text = p.plain text := by
  rw [argument]
  split
  · next cs hcs => exact absurd hcs (h _ _)
  · next c cs _ hcs => exact absurd hcs (h _ _)
  · rfl

/-- An argument without a missing value before it is a positional if it stands alone. -/
theorem plain_eq_positional (hp : ∀ slot, p.pending? ≠ some (slot, none)) (text : String) :
    p.plain text = p.positional text := by
  rw [plain]
  split
  · next slot missing => exact absurd missing (hp slot)
  · rfl

/-- Nothing is missing where something can be settled. -/
theorem not_missing_of_settle {q : Progress} (h : p.settle = .ok q) (slot : Slot) :
    p.pending? ≠ some (slot, none) := by
  intro missing
  rw [settle, missing] at h
  cases h

/-- An argument settles the pending value, unless it is the value that is missing. -/
theorem settlesFirst_argument (hp : ∀ slot, p.pending? ≠ some (slot, none)) (text : String) :
    SettlesFirst (·.argument text) p := by
  by_cases alone : StandsAlone text
  · simp only [argument_of_standsAlone alone]
    rw [SettlesFirst, plain_eq_positional hp, settlesFirst_positional]
    refine Option.bind_congr fun q hq => congrArg _ ?_
    exact (plain_eq_positional (not_missing_of_settle (settle_of_settle (ok_of_mem hq))) _).symm
  · simp only [StandsAlone, not_forall, not_not] at alone
    obtain ⟨c, cs, dashed⟩ := alone
    exact settlesFirst_dashed dashed p

/-- **A pending value may be settled at once.** What is read after it together with it does not
depend on when it is settled. -/
theorem answer?_of_settle (hp : ∀ slot, p.pending? ≠ some (slot, none)) (argv : List String) :
    p.answer? argv = p.settle.toOption.bind (·.answer? argv) := by
  have none_left : p.answer? [] = p.settle.toOption.bind (·.answer? []) := by
    cases h : p.settle with
    | error e => rw [answer?_nil, h]; rfl
    | ok q =>
      show _ = q.answer? []
      rw [answer?_nil, answer?_nil, h, settle_of_settle h]
  cases argv with
  | nil => exact none_left
  | cons text argv =>
    by_cases separator : text = "--"
    · subst separator
      simp only [answer?_separator]
      cases argv with
      | nil => exact none_left
      | cons path argv =>
        simp only [List.foldlM_cons, toOption_bind]
        rw [settlesFirst_positional]
        simp only [Option.bind_assoc]
    · simp only [answer?_cons _ _ separator]
      rw [settlesFirst_argument hp, Option.bind_assoc]

/-! ## Values -/

end Progress

/-- The name of the option whose value this is. -/
def Slot.name : Slot → String
  | .input => ""
  | .word => "word"
  | .isa => "isa"
  | .switch => "switch"

/-- An option has a name. -/
theorem Slot.name_ne {slot : Slot} (hslot : slot ≠ .input) : slot.name ≠ "" := by
  cases slot with
  | input => exact absurd rfl hslot
  | word | isa | switch => decide

/-- Storing the value of an option takes the argument that it is. -/
theorem toOption_store {slot : Slot} (hslot : slot ≠ .input) {a b : Arguments} {text : String} :
    (a.store slot text).toOption = some b ↔ ∃ x, Takes slot.name text x ∧ a.add? x = some b := by
  cases slot with
  | input => exact absurd rfl hslot
  | word =>
    cases h : Value.word text <;>
      simp [takes_iff, store, Slot.name, h, wellFormed, add?]
  | isa =>
    cases h : Value.isa text <;> cases is : a.isa?.isSome <;>
      simp [takes_iff, store, Slot.name, h, is, wellFormed, add?]
  | switch =>
    cases h : Value.switch text <;>
      simp [takes_iff, store, Slot.name, h, wellFormed, add?]

/-- Storing the value of an option takes the argument that is written with it. -/
theorem toOption_store_of_takes {slot : Slot} (hslot : slot ≠ .input) {a : Arguments}
    {text : String} {x : Argument} (hx : Takes slot.name text x) :
    (a.store slot text).toOption = a.add? x := by
  ext b
  rw [toOption_store hslot]
  constructor
  · rintro ⟨y, hy, hb⟩
    rwa [hx.unique hy] at hb
  · exact fun hb => ⟨x, hx, hb⟩

/-- What has a value is an option. -/
theorem exists_slot {name text : String} {x : Argument} (hx : Takes name text x) :
    ∃ slot : Slot, slot ≠ .input ∧ name = slot.name := by
  cases hx with
  | word => exact ⟨.word, by decide, rfl⟩
  | isa => exact ⟨.isa, by decide, rfl⟩
  | switch => exact ⟨.switch, by decide, rfl⟩

/-- Storing the value of an option names no file. -/
theorem input?_of_store {slot : Slot} (hslot : slot ≠ .input) {a b : Arguments} {text : String}
    (h : a.store slot text = .ok b) : b.input? = a.input? := by
  obtain ⟨x, hx, hadd⟩ := (toOption_store hslot).1 (congrArg Except.toOption h)
  rcases takes_iff.1 hx with ⟨w, -, -, rfl⟩ | ⟨i, -, -, rfl⟩ | ⟨s, -, -, rfl⟩
  · cases hadd; rfl
  · rw [add?] at hadd
    split at hadd
    · cases hadd
    · cases hadd; rfl
  · cases hadd; rfl

namespace Progress

variable {p : Progress} {a : Arguments} {slot : Slot} {text path : String} {argv : List String}

/-- An option with its value in the same text. -/
theorem toOption_option (hslot : slot ≠ .input) :
    ((settledAt a).option slot (some text)).toOption =
      (a.store slot text).toOption.map settledAt := by
  show (a.store slot text >>= _).toOption = _
  rw [toOption_bind]
  cases h : a.store slot text with
  | error e => rfl
  | ok b => simp [settledAt, input?_of_store hslot h]

/-- The value of an option is missing. -/
def awaiting (a : Arguments) (slot : Slot) : Progress :=
  { settledAt a with pending? := some (slot, none) }

/-- A text that stands alone is no separator. -/
theorem ne_separator (h : StandsAlone text) : text ≠ "--" := by
  rintro rfl
  exact h '-' [] rfl

/-- The next text that stands alone is the missing value. -/
theorem answer?_awaiting (hslot : slot ≠ .input) (h : StandsAlone text) :
    (awaiting a slot).answer? (text :: argv) =
      (a.store slot text).toOption.bind fun b => (settledAt b).answer? argv := by
  rw [answer?_cons _ _ (ne_separator h), argument_of_standsAlone h]
  show answer? { settledAt a with pending? := some (slot, some text) } argv = _
  rw [answer?_of_settle (by simp)]
  cases hstore : a.store slot text with
  | error e => simp [settle, settledAt, hstore]
  | ok b => simp [settle, settledAt, hstore, input?_of_store hslot hstore]

/-- A missing value comes as the next text, which stands alone. -/
theorem exists_of_answer?_awaiting {b : Arguments} (h : (awaiting a slot).answer? argv = some b) :
    ∃ text rest, argv = text :: rest ∧ StandsAlone text := by
  have missing : (awaiting a slot).settle.toOption = none := rfl
  cases argv with
  | nil => rw [answer?_nil, missing] at h; cases h
  | cons text argv =>
    refine ⟨text, argv, rfl, fun c cs dashed => ?_⟩
    have refused : (awaiting a slot).answer? (text :: argv) = none := by
      by_cases separator : text = "--"
      · subst separator
        rw [answer?_separator]
        cases argv with
        | nil => exact answer?_nil _
        | cons path argv =>
          rw [List.foldlM_cons, toOption_bind, settlesFirst_positional, missing]
          rfl
      · rw [answer?_cons _ _ separator, settlesFirst_dashed dashed, missing]
        rfl
    rw [refused] at h
    cases h

/-- A positional names the file, which there is once and has a name. -/
theorem toOption_positional : ((settledAt a).positional path).toOption.bind (·.answer? argv) =
    if path = "" then none
    else (a.add? (.input path)).bind fun b => (settledAt b).answer? argv := by
  cases has : a.input?.isSome with
  | true => simp [positional, settledAt, has, add?]
  | false =>
    have pending : (settledAt a).positional path =
        .ok { settledAt a with pending? := some (.input, some path), hasInput := true } := by
      simp [positional, settledAt, has, settle, bind, Except.bind, pure, Except.pure]
    rw [pending]
    show answer? _ argv = _
    rw [answer?_of_settle (by simp)]
    by_cases empty : path = "" <;>
      simp [settle, settledAt, store, add?, has, empty]

/-! ## Options -/

/-- A text that names an option is read as the option. -/
theorem argument_of_names {value? : Option String} (hslot : slot ≠ .input)
    (h : Names text slot.name value?) (p : Progress) : p.argument text = p.option slot value? := by
  generalize hname : slot.name = name at h
  cases h with
  | long =>
    subst hname
    cases slot with
    | input => exact absurd rfl hslot
    | word | isa | switch => rfl
  | @joined _ value =>
    subst hname
    have list : ("--" ++ slot.name ++ "=" ++ value).toList =
        '-' :: '-' :: (slot.name.toList ++ '=' :: value.toList) := by
      simp [String.toList_append]
    have clean : '=' ∉ slot.name.toList := by cases slot <;> decide
    simp only [argument, list, Value.splitAtEquals?_append clean, String.ofList_toList]
    cases slot with
    | input => exact absurd rfl hslot
    | word | isa | switch => rfl
  | letter =>
    obtain rfl : slot = .word := by revert hname; cases slot <;> decide
    rfl
  | @letterJoined value =>
    obtain rfl : slot = .word := by revert hname; cases slot <;> decide
    have list : ("-w=" ++ value).toList = '-' :: 'w' :: '=' :: value.toList := by
      simp [String.toList_append]
    simp only [argument, list]
    simp [short]
  | @letterWith value hvalue h =>
    obtain rfl : slot = .word := by revert hname; cases slot <;> decide
    have list : ("-w" ++ value).toList = '-' :: 'w' :: value.toList := by
      simp [String.toList_append]
    simp only [argument, list]
    simp [short, hvalue]

/-- Nothing is accepted together with a request for help or the version. -/
theorem stop_ne_ok {f : ArgumentFault} {q : Progress} : p.stop f ≠ .ok q := by
  rw [stop]
  cases p.settle <;> rintro ⟨⟩

/-- The long names that are accepted. -/
theorem name_of_long {name : String} {value? : Option String} {q : Progress}
    (h : p.long name value? = .ok q) :
    name = "log-file" ∧ value? = none ∨ ∃ slot : Slot, slot ≠ .input ∧ name = slot.name := by
  unfold long at h
  dsimp only at h
  split at h
  · exact .inr ⟨.word, by decide, rfl⟩
  · exact .inr ⟨.isa, by decide, rfl⟩
  · exact .inr ⟨.switch, by decide, rfl⟩
  · cases value? with
    | none => exact .inl ⟨rfl, rfl⟩
    | some value => cases h
  · cases value? with
    | none => exact absurd h stop_ne_ok
    | some value => cases h
  · cases value? with
    | none => exact absurd h stop_ne_ok
    | some value => cases h
  · cases h

/-- A text that starts with `-` and one letter and is accepted names the option for words. -/
theorem names_of_short {letter : Char} {rest : List Char} {q : Progress}
    (htext : text.toList = '-' :: letter :: rest) (h : p.short letter rest = .ok q) :
    ∃ value?, Names text "word" value? := by
  have spelled : ∀ s : String, s.toList = '-' :: letter :: rest → text = s := fun s hs =>
    String.toList_injective (htext.trans hs.symm)
  rw [short.eq_def] at h
  split at h
  · exact ⟨none, spelled "-w" rfl ▸ .letter⟩
  · next value =>
    rw [spelled ("-w=" ++ String.ofList value) (by simp [String.toList_append])]
    exact ⟨_, .letterJoined⟩
  · next nonempty other =>
    rw [spelled ("-w" ++ String.ofList rest) (by simp [String.toList_append])]
    refine ⟨_, .letterWith (fun empty => nonempty ?_) fun cs hcs => other cs ?_⟩
    · simpa using congrArg String.toList empty
    · simpa using hcs
  · exact absurd h stop_ne_ok
  · exact absurd h stop_ne_ok
  · cases h

/-- A text that starts with `-` and goes on is accepted only if it names an option. -/
theorem names_of_argument {c : Char} {cs : List Char} {q : Progress}
    (htext : text.toList = '-' :: c :: cs) (h : p.argument text = .ok q) :
    text = "--log-file" ∨ ∃ slot : Slot, slot ≠ .input ∧ ∃ value?, Names text slot.name value? := by
  have spelled : ∀ s : String, s.toList = '-' :: c :: cs → text = s := fun s hs =>
    String.toList_injective (htext.trans hs.symm)
  simp only [argument, htext] at h
  split at h
  · next body hbody =>
    obtain ⟨rfl, rfl⟩ : c = '-' ∧ cs = body := by simpa using hbody
    split at h
    · next name value parts =>
      obtain rfl := Value.eq_append_of_splitAtEquals? parts
      obtain ⟨-, ⟨⟩⟩ | ⟨slot, hslot, hname⟩ := name_of_long h
      rw [spelled ("--" ++ slot.name ++ "=" ++ String.ofList value)
        (by simp [← hname, String.toList_append])]
      exact .inr ⟨slot, hslot, _, .joined⟩
    · obtain ⟨hname, -⟩ | ⟨slot, hslot, hname⟩ := name_of_long h
      · exact .inl (spelled ("--" ++ "log-file") (by simp [← hname, String.toList_append]))
      · rw [spelled ("--" ++ slot.name) (by simp [← hname, String.toList_append])]
        exact .inr ⟨slot, hslot, none, .long⟩
  · next letter rest _ hrest =>
    obtain ⟨rfl, rfl⟩ : c = letter ∧ cs = rest := by simpa using hrest
    exact .inr ⟨.word, by decide, names_of_short htext h⟩
  · next other => exact absurd rfl (other c cs)

/-- An option whose value is the next text. -/
theorem answer?_names_none (hslot : slot ≠ .input) (h : Names text slot.name none) :
    (settledAt a).answer? (text :: argv) = (awaiting a slot).answer? argv := by
  rw [answer?_cons _ _ (h.ne_separator (Slot.name_ne hslot)), argument_of_names hslot h]
  rfl

/-- An option with its value in the same text. -/
theorem answer?_names_some {value : String} (hslot : slot ≠ .input)
    (h : Names text slot.name (some value)) : (settledAt a).answer? (text :: argv) =
      (a.store slot value).toOption.bind fun b => (settledAt b).answer? argv := by
  rw [answer?_cons _ _ (h.ne_separator (Slot.name_ne hslot)), argument_of_names hslot h,
    toOption_option hslot]
  cases a.store slot value <;> rfl

/-- The option for a log file. -/
theorem answer?_logFile : (settledAt a).answer? ("--log-file" :: argv) =
    (a.add? .logFile).bind fun b => (settledAt b).answer? argv := by
  rw [answer?_cons _ _ (by decide)]
  show (settledAt a).logFile.toOption.bind (·.answer? argv) = _
  cases has : a.logFile with
  | false =>
    have accepted : (settledAt a).logFile = .ok (settledAt { a with logFile := true }) := by
      simp [logFile, settledAt, settle, has, bind, Except.bind, pure, Except.pure]
    simp [accepted, add?, has]
  | true =>
    have refused : (settledAt a).logFile = .error .repeated := by
      simp [logFile, settledAt, settle, has, bind, Except.bind]
    simp [refused, add?, has]

/-- A file. -/
theorem answer?_standsAlone (h : StandsAlone path) : (settledAt a).answer? (path :: argv) =
    if path = "" then none
    else (a.add? (.input path)).bind fun b => (settledAt b).answer? argv := by
  rw [answer?_cons _ _ (ne_separator h), argument_of_standsAlone h,
    plain_eq_positional (by simp [settledAt]), toOption_positional]

/-! ## Written arguments -/

/-- An argument that is written is taken. -/
theorem answer?_written {texts : List String} {x : Argument} (hx : x.Written texts) :
    (settledAt a).answer? (texts ++ argv) =
      (a.add? x).bind fun b => (settledAt b).answer? argv := by
  cases hx with
  | @input path hpath alone =>
    rw [List.singleton_append, answer?_standsAlone alone, if_neg hpath]
  | @apart text name value _ hname hx alone =>
    obtain ⟨slot, hslot, rfl⟩ := exists_slot hx
    show (settledAt a).answer? (text :: value :: argv) = _
    rw [answer?_names_none hslot hname, answer?_awaiting hslot alone,
      toOption_store_of_takes hslot hx]
  | @together text name value _ hname hx =>
    obtain ⟨slot, hslot, rfl⟩ := exists_slot hx
    rw [List.singleton_append, answer?_names_some hslot hname, toOption_store_of_takes hslot hx]
  | logFile => exact answer?_logFile

/-- A file after the separator. -/
theorem answer?_separated : (settledAt a).answer? ["--", path] =
    if path = "" then none else a.add? (.input path) := by
  rw [answer?_separator]
  simp only [List.foldlM_cons, List.foldlM_nil, bind_pure]
  rw [toOption_positional]
  cases a.add? (.input path) <;> rfl

/-- There is no second positional. -/
theorem positional_of_positional {q : Progress} (h : p.positional path = .ok q) :
    q.positional text = .error .unknown := by
  have has : q.hasInput = true := by
    rw [positional] at h
    split at h
    · cases h
    · cases hp : p.settle <;> rw [hp] at h <;> cases h
      rfl
  rw [positional, has]
  rfl

/-- Arguments that are written are taken one after another. -/
theorem answer?_commandLine {xs : List Argument} (h : CommandLine argv xs) (a : Arguments) :
    (settledAt a).answer? argv = xs.foldlM add? a := by
  induction h generalizing a with
  | nil => exact answer?_nil _
  | cons hx _ ih =>
    rw [answer?_written hx, List.foldlM_cons]
    simp only [ih]
    rfl
  | separator => exact (answer?_separator _ _).trans (answer?_nil _)
  | @separated path hpath =>
    rw [answer?_separated, if_neg hpath, List.foldlM_cons]
    exact (bind_pure _).symm

/-- What is accepted before the separator starts with an argument that is written. -/
theorem exists_written {b : Arguments} (hne : text ≠ "--")
    (h : (settledAt a).answer? (text :: argv) = some b) :
    ∃ (texts rest : List String) (x : Argument) (c : Arguments), text :: argv = texts ++ rest ∧
      x.Written texts ∧ texts ≠ [] ∧ (settledAt c).answer? rest = some b := by
  by_cases alone : StandsAlone text
  · rw [answer?_standsAlone alone] at h
    split at h
    · cases h
    · next hpath =>
      obtain ⟨c, -, hrest⟩ := Option.bind_eq_some_iff.1 h
      exact ⟨[text], argv, .input text, c, rfl, .input hpath alone, by simp, hrest⟩
  simp only [StandsAlone, not_forall, not_not] at alone
  obtain ⟨_, _, dashed⟩ := alone
  obtain ⟨q, hq, -⟩ := Option.bind_eq_some_iff.1 ((answer?_cons _ _ hne).symm.trans h)
  obtain rfl | ⟨slot, hslot, value?, hname⟩ := names_of_argument dashed (ok_of_mem hq)
  · rw [answer?_logFile] at h
    obtain ⟨c, -, hrest⟩ := Option.bind_eq_some_iff.1 h
    exact ⟨["--log-file"], argv, .logFile, c, rfl, .logFile, by simp, hrest⟩
  cases value? with
  | none =>
    rw [answer?_names_none hslot hname] at h
    obtain ⟨value, rest, rfl, alone⟩ := exists_of_answer?_awaiting h
    rw [answer?_awaiting hslot alone] at h
    obtain ⟨c, hstore, hrest⟩ := Option.bind_eq_some_iff.1 h
    obtain ⟨x, hx, -⟩ := (toOption_store hslot).1 hstore
    exact ⟨[text, value], rest, x, c, rfl, .apart hname hx alone, by simp, hrest⟩
  | some value =>
    rw [answer?_names_some hslot hname] at h
    obtain ⟨c, hstore, hrest⟩ := Option.bind_eq_some_iff.1 h
    obtain ⟨x, hx, -⟩ := (toOption_store hslot).1 hstore
    exact ⟨[text], argv, x, c, rfl, .together hname hx, by simp, hrest⟩

/-- What is accepted is written. -/
theorem exists_commandLine {b : Arguments} (h : (settledAt a).answer? argv = some b) :
    ∃ xs, CommandLine argv xs := by
  induction hn : argv.length using Nat.strong_induction_on generalizing argv a with
  | _ n ih =>
    cases argv with
    | nil => exact ⟨[], .nil⟩
    | cons text argv =>
      by_cases separator : text = "--"
      · subst separator
        match argv with
        | [] => exact ⟨[], .separator⟩
        | [path] =>
          rw [answer?_separated] at h
          split at h
          · cases h
          · next hpath => exact ⟨[.input path], .separated hpath⟩
        | path :: second :: more =>
          rw [answer?_separator, List.foldlM_cons, toOption_bind, Option.bind_assoc] at h
          obtain ⟨q, hq, h⟩ := Option.bind_eq_some_iff.1 h
          rw [List.foldlM_cons, positional_of_positional (ok_of_mem hq)] at h
          cases h
      · obtain ⟨texts, rest, x, c, hargv, hx, hne, hrest⟩ := exists_written separator h
        have shorter : rest.length < n := by
          have := congrArg List.length hargv
          have := List.length_pos_iff.2 hne
          rw [List.length_append] at *
          omega
        obtain ⟨xs, hxs⟩ := ih rest.length shorter hrest rfl
        exact ⟨x :: xs, hargv ▸ .cons hx hxs⟩

end Progress

/-- Reading starts where nothing is pending. -/
theorem read_eq_ok_iff_answer? {argv : List String} {a : Arguments} :
    read argv = .ok a ↔ (Progress.settledAt {}).answer? argv = some a := by
  have start : (Progress.settledAt {}).answer? argv = (read argv).toOption := rfl
  rw [start]
  exact ⟨fun h => h ▸ rfl, Progress.ok_of_mem⟩

/-- Reading is taking what is written one after another. -/
theorem read_eq_ok_iff_of_commandLine {argv : List String} {xs : List Argument} {a : Arguments}
    (h : CommandLine argv xs) : read argv = .ok a ↔ Once xs ∧ a = ofList xs := by
  rw [read_eq_ok_iff_answer?, Progress.answer?_commandLine h, foldlM_add?_eq_some_iff]

/-- **What is accepted.** Reading accepts exactly the texts that are written as the grammar says and
name at most one file and one instruction set and ask for a log file at most once, and answers with
what they say.

**Proof sketch.** A value that is pending may be settled at once
(`AArch64.Arguments.Progress.answer?_of_settle`), so the arguments that are written are taken one
after another (`AArch64.Arguments.Progress.answer?_commandLine`). The other way round, what is
accepted starts with an argument that is written. -/
theorem read_eq_ok_iff {argv : List String} {a : Arguments} :
    read argv = .ok a ↔ ∃ xs, CommandLine argv xs ∧ Once xs ∧ a = ofList xs := by
  constructor
  · intro h
    obtain ⟨xs, hxs⟩ := Progress.exists_commandLine (read_eq_ok_iff_answer?.1 h)
    exact ⟨xs, hxs, (read_eq_ok_iff_of_commandLine hxs).1 h⟩
  · rintro ⟨xs, hxs, h⟩
    exact (read_eq_ok_iff_of_commandLine hxs).2 h

end Arguments

end AArch64
