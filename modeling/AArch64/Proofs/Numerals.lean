import AArch64.CommandLine.Value
import AArch64.Text.Digits
import Mathlib.Data.List.Induction
import Mathlib.Data.List.TakeWhile
import Mathlib.Tactic.IntervalCases

/-!
# Numerals on the command line

A number and an instruction word are numerals between blank characters, with underscores inside. The
grammar is given by relations between a text and a number, without a bound; the readers accept
exactly the texts of the grammar whose number is below their bound. They differ in what goes first,
the underscores or the mark of a hexadecimal numeral, and agree on every text that begins with the
mark.

## Main definitions

* `AArch64.Text.Trimmed` — a text without its blank ends.
* `AArch64.Text.Digits`, `AArch64.Text.Numeral` — digits of a base, and with a sign in front.
* `AArch64.Value.Marked` — the mark `0x` and what follows it.
* `AArch64.Value.SpellsNumber`, `AArch64.Value.SpellsWord` — the grammar of the two readers.

## Main results

* `AArch64.Text.readUnsigned_eq_ok_iff` — reading accepts the numerals below the bound.
* `AArch64.Text.digits_hex` — the digits that are printed are digits of the number.
* `AArch64.Value.reads_iff_spells` — what the readers accept, and where they agree.
-/

set_option autoImplicit false

namespace AArch64

namespace Text

/-! ## Blank ends -/

/-- A text and what is left of it without the blank characters at its two ends. -/
structure Trimmed (cs core : List Char) : Prop where
  exists_blanks : ∃ before after, cs = before ++ core ++ after ∧
    (∀ c ∈ before, isBlank c) ∧ ∀ c ∈ after, isBlank c
  head : ∀ c ∈ core.head?, ¬ isBlank c
  last : ∀ c ∈ core.getLast?, ¬ isBlank c

/-- Blank characters in front of a text that does not begin with one. -/
theorem dropWhile_blanks {before rest : List Char} (hbefore : ∀ c ∈ before, isBlank c)
    (hrest : ∀ c ∈ rest.head?, ¬ isBlank c) : (before ++ rest).dropWhile isBlank = rest := by
  rw [List.dropWhile_append_of_pos hbefore]
  cases rest with
  | nil => rfl
  | cons c rest => exact List.dropWhile_cons_of_neg (hrest c rfl)

/-- What is left of a text does not begin with a blank character. -/
theorem not_isBlank_of_mem_head?_dropWhile {cs : List Char} {c : Char}
    (h : c ∈ (cs.dropWhile isBlank).head?) : ¬ isBlank c := by
  have := List.head?_dropWhile_not isBlank cs
  rw [Option.mem_def.1 h] at this
  simpa using this

/-- A text without its blank ends is the trimmed one. -/
theorem eq_trim_of_trimmed {cs core : List Char} (h : Trimmed cs core) : core = trim cs := by
  obtain ⟨⟨before, after, rfl, hbefore, hafter⟩, head, last⟩ := h
  cases core with
  | nil =>
    have blank : (before ++ [] ++ after).dropWhile isBlank = [] := by
      rw [List.append_nil, ← List.append_nil (before ++ after)]
      refine dropWhile_blanks (fun c hc => ?_) fun c hc => by simp at hc
      exact (List.mem_append.1 hc).elim (hbefore c) (hafter c)
    rw [trim, blank]
    rfl
  | cons c core =>
    have front : (before ++ (c :: core) ++ after).dropWhile isBlank = c :: core ++ after := by
      rw [List.append_assoc]
      exact dropWhile_blanks hbefore fun d hd => head d (by simpa using hd)
    have back : (after.reverse ++ (c :: core).reverse).dropWhile isBlank = (c :: core).reverse := by
      refine dropWhile_blanks (fun d hd => hafter d (List.mem_reverse.1 hd)) fun d hd => ?_
      exact last d (by rwa [List.head?_reverse] at hd)
    rw [trim, front, List.reverse_append, back, List.reverse_reverse]

/-- The trimmed text is without blank ends. -/
theorem trimmed_trim (cs : List Char) : Trimmed cs (trim cs) := by
  have front : cs.takeWhile isBlank ++ cs.dropWhile isBlank = cs :=
    List.takeWhile_append_dropWhile
  set rest := cs.dropWhile isBlank with hrest
  set blanks := rest.reverse.takeWhile isBlank with hblanks
  have back : trim cs ++ blanks.reverse = rest := by
    rw [trim, ← List.reverse_append, List.takeWhile_append_dropWhile, List.reverse_reverse]
  refine ⟨⟨cs.takeWhile isBlank, blanks.reverse, ?_, fun c => List.mem_takeWhile_imp, ?_⟩, ?_, ?_⟩
  · rw [List.append_assoc, back, front]
  · exact fun c hc => List.mem_takeWhile_imp (List.mem_reverse.1 hc)
  · intro c hc
    obtain ⟨core, hcore⟩ := List.head?_eq_some_iff.1 (Option.mem_def.1 hc)
    have front : c ∈ rest.head? := by
      rw [← back, hcore]
      rfl
    exact not_isBlank_of_mem_head?_dropWhile front
  · intro c hc
    rw [trim, List.getLast?_reverse] at hc
    exact not_isBlank_of_mem_head?_dropWhile hc

/-- There is one text without blank ends. -/
theorem trimmed_iff {cs core : List Char} : Trimmed cs core ↔ core = trim cs :=
  ⟨eq_trim_of_trimmed, fun h => h ▸ trimmed_trim cs⟩

/-! ## Digits -/

/-- A character is the digit of a value in a base. Letters are in either case. -/
structure IsDigit (base : Nat) (c : Char) (d : Nat) : Prop where
  lt : d < base
  eq_or_eq : c = Nat.digitChar d ∨ c = (Nat.digitChar d).toUpper

/-- Digits of a base, at least one, and the number that they form. The last one is the lowest. -/
inductive Digits (base : Nat) : List Char → Nat → Prop
  /-- One digit. -/
  | single {c : Char} {d : Nat} (hc : IsDigit base c d) : Digits base [c] d
  /-- One more digit. -/
  | snoc {cs : List Char} {c : Char} {n d : Nat} (hcs : Digits base cs n)
      (hc : IsDigit base c d) : Digits base (cs ++ [c]) (n * base + d)

/-- A number without sign, as digits with or without a plus in front. -/
inductive Numeral (base : Nat) : List Char → Nat → Prop
  /-- Digits. -/
  | plain {cs : List Char} {n : Nat} (h : Digits base cs n) : Numeral base cs n
  /-- Digits behind a plus. -/
  | signed {cs : List Char} {n : Nat} (h : Digits base cs n) : Numeral base ('+' :: cs) n

/-- There is at least one digit. -/
theorem Digits.ne_nil {base n : Nat} {cs : List Char} (h : Digits base cs n) : cs ≠ [] := by
  cases h <;> simp

/-- The last of several digits. -/
theorem digits_concat_iff {base n : Nat} {cs : List Char} {c : Char} :
    Digits base (cs ++ [c]) n ↔ cs = [] ∧ IsDigit base c n ∨
      ∃ m d, Digits base cs m ∧ IsDigit base c d ∧ n = m * base + d := by
  constructor
  · generalize hl : cs ++ [c] = l
    intro h
    cases h with
    | single hc =>
      rcases List.append_eq_singleton_iff.1 hl with ⟨rfl, h⟩ | ⟨-, h⟩
      · obtain rfl := List.singleton_inj.1 h
        exact .inl ⟨rfl, hc⟩
      · simp at h
    | snoc hcs hc =>
      obtain ⟨rfl, rfl⟩ := List.append_singleton_inj.1 hl
      exact .inr ⟨_, _, hcs, hc, rfl⟩
  · rintro (⟨rfl, hc⟩ | ⟨m, d, hcs, hc, rfl⟩)
    · exact .single hc
    · exact .snoc hcs hc

/-- The characters that are digits of some base up to 16. -/
def digitChars : List Char :=
  "0123456789abcdefABCDEF".toList

/-- Digits up to base 16 are characters that digits are written with. -/
theorem IsDigit.mem_digitChars {base d : Nat} {c : Char} (hbase : base ≤ 16)
    (h : IsDigit base c d) : c ∈ digitChars := by
  obtain ⟨hd, h⟩ := h
  have : d < 16 := by omega
  interval_cases d <;> rcases h with rfl | rfl <;> decide

/-- So are all characters of a numeral. -/
theorem Digits.mem_digitChars {base n : Nat} {cs : List Char} (hbase : base ≤ 16)
    (h : Digits base cs n) : ∀ c ∈ cs, c ∈ digitChars := by
  induction h with
  | single hc => simpa using hc.mem_digitChars hbase
  | snoc _ hc ih =>
    intro c hmem
    rcases List.mem_append.1 hmem with hmem | hmem
    · exact ih c hmem
    · rw [List.mem_singleton.1 hmem]
      exact hc.mem_digitChars hbase

/-- Digits are neither signs, nor separators, nor blank. -/
theorem ne_of_mem_digitChars {c : Char} (h : c ∈ digitChars) :
    c ≠ '+' ∧ c ≠ '_' ∧ c ≠ 'x' ∧ c ≠ 'X' ∧ isBlank c = false := by
  have all : digitChars.all (fun c =>
      c != '+' && c != '_' && c != 'x' && c != 'X' && !isBlank c) = true := by decide +kernel
  simpa [and_assoc] using List.all_eq_true.1 all c h

/-! ### Printing -/

/-- Zeros in front of digits do not count. -/
theorem Digits.zeros {base n : Nat} {cs : List Char} (h : Digits base cs n) (k : Nat) :
    Digits base (List.replicate k '0' ++ cs) n := by
  have zero : ∀ {cs : List Char} {n : Nat}, Digits base cs n → Digits base ('0' :: cs) n := by
    intro cs n h
    induction h with
    | single hc =>
      have lead : IsDigit base '0' 0 := ⟨Nat.lt_of_le_of_lt (Nat.zero_le _) hc.lt, .inl rfl⟩
      simpa using Digits.snoc (.single lead) hc
    | snoc _ hc ih => exact .snoc ih hc
  induction k with
  | zero => exact h
  | succ k ih => exact zero ih

/-- Letters among digits may be in upper case. -/
theorem Digits.map_toUpper {base n : Nat} {cs : List Char} (hbase : base ≤ 16)
    (h : Digits base cs n) : Digits base (cs.map Char.toUpper) n := by
  have digit : ∀ {c : Char} {d : Nat}, IsDigit base c d → IsDigit base c.toUpper d := by
    rintro c d ⟨hd, h⟩
    refine ⟨hd, .inr ?_⟩
    have : d < 16 := by omega
    interval_cases d <;> rcases h with rfl | rfl <;> rfl
  induction h with
  | single hc => exact .single (digit hc)
  | snoc _ hc ih =>
    rw [List.map_append]
    exact .snoc ih (digit hc)

/-- The digits that a number is printed with form the number. -/
theorem digits_toDigits {base : Nat} (hbase : 1 < base) (n : Nat) :
    Digits base (Nat.toDigits base n) n := by
  induction n using Nat.base_induction base hbase with
  | single m hm =>
    rw [Nat.toDigits_of_lt_base hm]
    exact .single ⟨hm, .inl rfl⟩
  | digit m k hk hm ih =>
    rw [← Nat.toDigits_append_toDigits hbase hm hk, Nat.toDigits_of_lt_base hk, Nat.mul_comm]
    exact .snoc ih ⟨hk, .inl rfl⟩

/-- What is printed of a number in hexadecimal notation is digits of the number. -/
theorem digits_hex (width n : Nat) : Digits 16 (hex width n).toList n := by
  rw [hex, String.toList_ofList]
  exact (digits_toDigits (by omega) n).zeros _

/-! ### Reading -/

/-- Reading digits, the last one apart. -/
theorem readDigits_concat (base bound value : Nat) (cs : List Char) (c : Char) :
    readDigits base bound value (cs ++ [c]) =
      readDigits base bound value cs >>= fun m => readDigits base bound m [c] := by
  induction cs generalizing value with
  | nil => rfl
  | cons b cs ih =>
    simp only [List.cons_append, readDigits]
    split
    · rfl
    · split
      · exact ih _
      · rfl

section Base

variable {base : Nat} (hbase : base ≤ 16)
include hbase

/-- A character is read as the digit that it is. -/
theorem digit?_eq_some_iff {c : Char} {d : Nat} : digit? base c = some d ↔ IsDigit base c d := by
  constructor
  · intro h
    obtain ⟨hvalue, hlt⟩ := Option.filter_eq_some_iff.1 h
    have hd : d < base := of_decide_eq_true hlt
    have short : d < 16 := by omega
    have known : ∀ n, c.toNat = n → c = Char.ofNat n := fun n hn => by
      rw [← hn, Char.ofNat_toNat]
    refine ⟨hd, ?_⟩
    split at hvalue
    · next range =>
      change 48 ≤ c.toNat ∧ c.toNat ≤ 57 at range
      have value : c.toNat - 48 = d := Option.some.inj hvalue
      have small : d < 10 := by omega
      obtain rfl := known (d + 48) (by omega)
      left
      interval_cases d <;> rfl
    · split at hvalue
      · next range =>
        change 97 ≤ c.toNat ∧ c.toNat ≤ 122 at range
        have value : c.toNat - 97 + 10 = d := Option.some.inj hvalue
        have letter : 10 ≤ d := by omega
        obtain rfl := known (d + 87) (by omega)
        left
        interval_cases d <;> rfl
      · split at hvalue
        · next range =>
          change 65 ≤ c.toNat ∧ c.toNat ≤ 90 at range
          have value : c.toNat - 65 + 10 = d := Option.some.inj hvalue
          have letter : 10 ≤ d := by omega
          obtain rfl := known (d + 55) (by omega)
          right
          interval_cases d <;> rfl
        · cases hvalue
  · rintro ⟨hd, h⟩
    have : d < 16 := by omega
    rw [digit?]
    interval_cases d <;> rcases h with rfl | rfl <;> simpa [Nat.digitChar] using hd

/-- How the last digit is read. -/
theorem readDigits_singleton_eq_ok_iff {bound value n : Nat} {c : Char} :
    readDigits base bound value [c] = .ok n ↔
      ∃ d, IsDigit base c d ∧ n = value * base + d ∧ n < bound := by
  simp only [← digit?_eq_some_iff hbase, readDigits]
  cases digit? base c with
  | none => simp
  | some d =>
    by_cases h : value * base + d < bound
    · simp only [h, if_true, Except.ok.injEq, Option.some.injEq, exists_eq_left']
      exact ⟨fun hn => ⟨hn.symm, hn ▸ h⟩, fun hn => hn.1.symm⟩
    · simp only [h, if_false, reduceCtorEq, Option.some.injEq, exists_eq_left', false_iff, not_and]
      exact fun hn => hn ▸ h

/-- Reading digits accepts those whose number is below the bound. No digit makes a number smaller,
so that the numbers on the way are below the bound as well. -/
theorem readDigits_eq_ok_iff {bound n : Nat} {cs : List Char} (hcs : cs ≠ []) :
    readDigits base bound 0 cs = .ok n ↔ Digits base cs n ∧ n < bound := by
  induction cs using List.reverseRecOn generalizing n with
  | nil => exact absurd rfl hcs
  | append_singleton cs c ih =>
    have split : readDigits base bound 0 (cs ++ [c]) = .ok n ↔
        ∃ m, readDigits base bound 0 cs = .ok m ∧ readDigits base bound m [c] = .ok n := by
      rw [readDigits_concat]
      cases readDigits base bound 0 cs <;> simp [bind, Except.bind]
    rw [split, digits_concat_iff]
    simp only [readDigits_singleton_eq_ok_iff hbase]
    by_cases hnil : cs = []
    · subst hnil
      have none : ∀ m, ¬ Digits base [] m := fun m h => h.ne_nil rfl
      simp [none, readDigits]
    · simp only [ih hnil, hnil, false_and, false_or]
      constructor
      · rintro ⟨m, ⟨hm, -⟩, d, hc, rfl, hn⟩
        exact ⟨⟨m, d, hm, hc, rfl⟩, hn⟩
      · rintro ⟨⟨m, d, hm, hc, rfl⟩, hn⟩
        have := Nat.le_mul_of_pos_right m (Nat.lt_of_le_of_lt (Nat.zero_le d) hc.lt)
        exact ⟨m, ⟨hm, by omega⟩, d, hc, rfl, hn⟩

/-- A plus is no digit. -/
theorem not_digits_plus {n : Nat} {cs : List Char} : ¬ Digits base ('+' :: cs) n := fun h =>
  (ne_of_mem_digitChars (h.mem_digitChars hbase '+' List.mem_cons_self)).1 rfl

/-- Reading accepts the numerals whose number is below the bound. -/
theorem readUnsigned_eq_ok_iff {bound n : Nat} {cs : List Char} :
    readUnsigned base bound cs = .ok n ↔ Numeral base cs n ∧ n < bound := by
  have digits_of_plain : ∀ {ds : List Char}, (∀ rest, ds ≠ '+' :: rest) →
      (Numeral base ds n ↔ Digits base ds n) := by
    intro ds hds
    refine ⟨?_, .plain⟩
    rintro (h | h)
    · exact h
    · exact absurd rfl (hds _)
  have digits_of_signed : ∀ {rest : List Char},
      Numeral base ('+' :: rest) n ↔ Digits base rest n := by
    intro rest
    refine ⟨?_, .signed⟩
    rintro (h | h)
    · exact absurd h (not_digits_plus hbase)
    · exact h
  unfold readUnsigned
  split
  · rw [digits_of_plain (by simp)]
    exact ⟨nofun, fun h => absurd rfl h.1.ne_nil⟩
  · rw [digits_of_signed]
    exact ⟨nofun, fun h => absurd rfl h.1.ne_nil⟩
  · next rest hrest =>
    rw [digits_of_signed, readDigits_eq_ok_iff hbase]
    simpa using hrest
  · next hnil _ hplus =>
    rw [digits_of_plain hplus, readDigits_eq_ok_iff hbase hnil]

end Base

end Text

namespace Value

/-! ## The grammar -/

/-- A text with the mark of a hexadecimal numeral, and what follows the mark. -/
inductive Marked : List Char → List Char → Prop
  /-- The mark `0x`. -/
  | lower (cs : List Char) : Marked ('0' :: 'x' :: cs) cs
  /-- The mark `0X`. -/
  | upper (cs : List Char) : Marked ('0' :: 'X' :: cs) cs

/-- A text without separators, and the number that it spells: a hexadecimal numeral behind its mark,
or a decimal one. -/
def SpellsNumber (cs : List Char) (n : Nat) : Prop :=
  (∃ digits, Marked cs digits ∧ Text.Numeral 16 digits n) ∨ Text.Numeral 10 cs n

/-- A text, and the number that it spells as an instruction word: a hexadecimal numeral with
separators, behind its mark if there is one. -/
def SpellsWord (cs : List Char) (n : Nat) : Prop :=
  ∃ digits, (Marked cs digits ∨ (∀ rest, ¬ Marked cs rest) ∧ digits = cs) ∧
    Text.Numeral 16 (withoutSeparators digits) n

/-- The mark is taken off a text that has one. -/
theorem afterHexMark?_eq_some_iff {cs digits : List Char} :
    afterHexMark? cs = some digits ↔ Marked cs digits := by
  constructor
  · unfold afterHexMark?
    split
    · rintro ⟨⟩
      exact .lower _
    · rintro ⟨⟩
      exact .upper _
    · rintro ⟨⟩
  · rintro (_ | _) <;> rfl

/-- Other texts have no mark. -/
theorem afterHexMark?_eq_none_iff {cs : List Char} :
    afterHexMark? cs = none ↔ ∀ digits, ¬ Marked cs digits := by
  simp only [← afterHexMark?_eq_some_iff, Option.eq_none_iff_forall_ne_some]

/-- There is one text behind a mark. -/
theorem Marked.unique {cs digits digits' : List Char} (h : Marked cs digits)
    (h' : Marked cs digits') : digits = digits' := by
  rw [← afterHexMark?_eq_some_iff] at h h'
  exact Option.some.inj (h.symm.trans h')

/-- The mark stays in front when separators go. -/
theorem Marked.withoutSeparators {cs digits : List Char} (h : Marked cs digits) :
    Marked (withoutSeparators cs) (withoutSeparators digits) := by
  cases h
  · exact .lower _
  · exact .upper _

/-- The letter of the mark is no decimal digit. -/
theorem Marked.not_numeral {cs digits : List Char} {n : Nat} (h : Marked cs digits) :
    ¬ Text.Numeral 10 cs n := by
  have letter : ∀ {x : Char} {rest : List Char}, x = 'x' ∨ x = 'X' →
      ¬ Text.Numeral 10 ('0' :: x :: rest) n := by
    intro x rest hx hn
    generalize htext : '0' :: x :: rest = text at hn
    cases hn with
    | plain hdigits =>
      have := Text.ne_of_mem_digitChars
        (hdigits.mem_digitChars (by omega) x (by rw [← htext]; simp))
      rcases hx with rfl | rfl <;> simp at this
    | signed => simp at htext
  cases h
  · exact letter (.inl rfl)
  · exact letter (.inr rfl)

/-- A text with the mark spells a number in hexadecimal. -/
theorem spellsNumber_of_marked {cs digits : List Char} {n : Nat} (h : Marked cs digits) :
    SpellsNumber cs n ↔ Text.Numeral 16 digits n := by
  constructor
  · rintro (⟨digits', h', hn⟩ | hn)
    · exact h.unique h' ▸ hn
    · exact absurd hn h.not_numeral
  · exact fun hn => .inl ⟨digits, h, hn⟩

/-- A text without the mark spells a number in decimal. -/
theorem spellsNumber_of_not_marked {cs : List Char} {n : Nat} (h : ∀ digits, ¬ Marked cs digits) :
    SpellsNumber cs n ↔ Text.Numeral 10 cs n :=
  or_iff_right fun ⟨digits, hmarked, _⟩ => h digits hmarked

/-- A text with the mark spells a word behind it. -/
theorem spellsWord_of_marked {cs digits : List Char} {n : Nat} (h : Marked cs digits) :
    SpellsWord cs n ↔ Text.Numeral 16 (withoutSeparators digits) n := by
  constructor
  · rintro ⟨digits', h' | ⟨h', -⟩, hn⟩
    · exact h.unique h' ▸ hn
    · exact absurd h (h' digits)
  · exact fun hn => ⟨digits, .inl h, hn⟩

/-- A text without the mark spells a word from its beginning. -/
theorem spellsWord_of_not_marked {cs : List Char} {n : Nat} (h : ∀ digits, ¬ Marked cs digits) :
    SpellsWord cs n ↔ Text.Numeral 16 (withoutSeparators cs) n := by
  constructor
  · rintro ⟨digits, h' | ⟨-, rfl⟩, hn⟩
    · exact absurd h' (h digits)
    · exact hn
  · exact fun hn => ⟨cs, .inr ⟨h, rfl⟩, hn⟩

/-! ## The readers -/

/-- A number is accepted exactly if its text spells it, without separators and blank ends, and it
has 64 bits. -/
theorem number_eq_ok_iff {text : String} {n : Nat} :
    number text = .ok n ↔
      SpellsNumber (withoutSeparators (Text.trim text.toList)) n ∧ n < 2 ^ 64 := by
  have ok : ∀ (x : Except Text.NumberFault Nat) (f : Text.NumberFault → ValueFault),
      x.mapError f = .ok n ↔ x = .ok n := by
    intro x f
    cases x <;> simp [Except.mapError]
  simp only [number, ok]
  generalize withoutSeparators (Text.trim text.toList) = cs
  cases hmark : afterHexMark? cs with
  | none =>
    rw [spellsNumber_of_not_marked (afterHexMark?_eq_none_iff.1 hmark)]
    exact Text.readUnsigned_eq_ok_iff (by omega)
  | some digits =>
    rw [spellsNumber_of_marked (afterHexMark?_eq_some_iff.1 hmark)]
    exact Text.readUnsigned_eq_ok_iff (by omega)

/-- A word is accepted exactly if its text spells it, without blank ends. -/
theorem word_eq_ok_iff {text : String} {w : Word} :
    word text = .ok w ↔ SpellsWord (Text.trim text.toList) w.toNat := by
  simp only [word]
  generalize Text.trim text.toList = cs
  have spells : SpellsWord cs w.toNat ↔
      Text.Numeral 16 (withoutSeparators ((afterHexMark? cs).getD cs)) w.toNat := by
    cases hmark : afterHexMark? cs with
    | none => exact spellsWord_of_not_marked (afterHexMark?_eq_none_iff.1 hmark)
    | some digits => exact spellsWord_of_marked (afterHexMark?_eq_some_iff.1 hmark)
  rw [spells]
  generalize withoutSeparators ((afterHexMark? cs).getD cs) = digits
  have reads : Text.Numeral 16 digits w.toNat ↔
      Text.readUnsigned 16 (2 ^ 32) digits = .ok w.toNat := by
    rw [Text.readUnsigned_eq_ok_iff (by omega)]
    exact (and_iff_left w.isLt).symm
  rw [reads]
  cases hread : Text.readUnsigned 16 (2 ^ 32) digits with
  | error fault => simp
  | ok n =>
    have small : n < 2 ^ 32 := ((Text.readUnsigned_eq_ok_iff (by omega)).1 hread).2
    simp only [Except.ok.injEq]
    constructor
    · rintro rfl
      rw [BitVec.toNat_ofNat, Nat.mod_eq_of_lt small]
    · rintro rfl
      rw [BitVec.ofNat_toNat, BitVec.setWidth_eq]

/-- Digits with separators behind the mark have no blank ends. -/
theorem trim_printed {digits : List Char}
    (h : ∀ c ∈ withoutSeparators digits, c ∈ Text.digitChars) :
    Text.trim ('0' :: 'x' :: digits) = '0' :: 'x' :: digits := by
  have visible : ∀ c ∈ '0' :: 'x' :: digits, ¬ Text.isBlank c := by
    intro c hc
    simp only [List.mem_cons] at hc
    rcases hc with rfl | rfl | hc
    · decide
    · decide
    · by_cases hsep : c = '_'
      · subst hsep
        decide
      · have := h c (List.mem_filter.2 ⟨hc, by simpa using hsep⟩)
        simp [(Text.ne_of_mem_digitChars this).2.2.2.2]
  refine (Text.eq_trim_of_trimmed ⟨⟨[], [], by simp, nofun, nofun⟩, ?_, ?_⟩).symm
  · exact fun c hc => visible c (List.mem_of_mem_head? hc)
  · exact fun c hc => visible c (List.mem_of_getLast? hc)

/-- What the two readers accept.

* A word is accepted, and has the value `w`, exactly when the text without its blank ends spells `w`:
  separators go behind the mark. No bound is left to be asked, since `w` is a word.
* A number is accepted exactly when the text without its blank ends and without separators spells a
  number of 64 bits.
* On a text that begins with the mark, the word reader accepts what the number reader accepts with a
  value of 32 bits, and gives the same value.
* Both read what is printed of a number in hexadecimal notation behind its mark, of whatever width
  and in either case, with separators anywhere behind the mark. -/
theorem reads_iff_spells (text : String) :
    (∀ w, word text = .ok w ↔ ∃ core, Text.Trimmed text.toList core ∧ SpellsWord core w.toNat) ∧
    (∀ n, number text = .ok n ↔ n < 2 ^ 64 ∧
      ∃ core, Text.Trimmed text.toList core ∧ SpellsNumber (withoutSeparators core) n) ∧
    (∀ core digits, Text.Trimmed text.toList core → Marked core digits → ∀ n,
      (∃ w, word text = .ok w ∧ w.toNat = n) ↔ number text = .ok n ∧ n < 2 ^ 32) ∧
    (∀ width v digits, text.toList = '0' :: 'x' :: digits →
      (withoutSeparators digits = (Text.hex width v).toList ∨
        withoutSeparators digits = (Text.hex width v).toList.map Char.toUpper) →
      (v < 2 ^ 32 → word text = .ok (BitVec.ofNat 32 v)) ∧
        (v < 2 ^ 64 → number text = .ok v)) := by
  have trimmed : ∀ P : List Char → Prop,
      (∃ core, Text.Trimmed text.toList core ∧ P core) ↔ P (Text.trim text.toList) := by
    simp [Text.trimmed_iff]
  refine ⟨fun w => ?_, fun n => ?_, ?_, ?_⟩
  · rw [trimmed, word_eq_ok_iff]
  · rw [trimmed fun core => SpellsNumber (withoutSeparators core) n, number_eq_ok_iff, and_comm]
  · rintro core digits hcore hmarked n
    obtain rfl := Text.trimmed_iff.1 hcore
    simp only [word_eq_ok_iff, number_eq_ok_iff, spellsWord_of_marked hmarked,
      spellsNumber_of_marked hmarked.withoutSeparators]
    constructor
    · rintro ⟨w, hw, rfl⟩
      have := w.isLt
      exact ⟨⟨hw, by omega⟩, this⟩
    · rintro ⟨⟨hn, -⟩, small⟩
      have value : (BitVec.ofNat 32 n).toNat = n := by
        rw [BitVec.toNat_ofNat, Nat.mod_eq_of_lt small]
      exact ⟨BitVec.ofNat 32 n, value.symm ▸ hn, value⟩
  · rintro width v digits htext hprinted
    have spelled : Text.Digits 16 (withoutSeparators digits) v := by
      rcases hprinted with h | h
      · exact h ▸ Text.digits_hex width v
      · exact h ▸ (Text.digits_hex width v).map_toUpper (by omega)
    have mark : Marked (Text.trim text.toList) digits := by
      rw [htext, trim_printed (spelled.mem_digitChars (by omega))]
      exact .lower digits
    rw [word_eq_ok_iff, number_eq_ok_iff, spellsWord_of_marked mark,
      spellsNumber_of_marked mark.withoutSeparators]
    refine ⟨fun small => ?_, fun small => ⟨.plain spelled, small⟩⟩
    rw [BitVec.toNat_ofNat, Nat.mod_eq_of_lt small]
    exact .plain spelled

/-- Separators behind the mark and at the end are read over, and so is a plus between them. A mark
torn apart is one for numbers only. -/
theorem reads_iff_spells_separated :
    word "0xD5_03__201F_" = .ok 0xd503201f ∧ number "0xD5_03__201F_" = .ok 0xd503201f ∧
      (∃ w, word " 0X_+_1f " = .ok w ∧ w.toNat = 31) ∧
      number "0_x1f" = .ok 31 ∧ ¬ ∃ w, word "0_x1f" = .ok w := by
  obtain ⟨-, -, -, printed⟩ := reads_iff_spells "0xD5_03__201F_"
  obtain ⟨-, -, agree, -⟩ := reads_iff_spells " 0X_+_1f "
  have upper : withoutSeparators "D5_03__201F_".toList =
      (Text.hex 8 0xd503201f).toList.map Char.toUpper := by decide +kernel
  have both := printed 8 0xd503201f "D5_03__201F_".toList (by decide) (.inr upper)
  have trimmed : Text.Trimmed " 0X_+_1f ".toList "0X_+_1f".toList :=
    Text.trimmed_iff.2 (by decide)
  have signed : number " 0X_+_1f " = .ok 31 := rfl
  have torn : word "0_x1f" = .error (.number "0_x1f" .invalidDigit) := rfl
  refine ⟨both.1 (by decide), both.2 (by decide),
    (agree _ _ trimmed (.upper _) 31).2 ⟨signed, by decide⟩, rfl, ?_⟩
  rintro ⟨w, hw⟩
  rw [torn] at hw
  cases hw

end Value

end AArch64
