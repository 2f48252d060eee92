import AArch64.Proofs.Outcome
import AArch64.Table

/-!
# What validation accepts

A table passes validation exactly when it obeys the rules that concern the table alone, and a defect
that validation reports is one that the table has.

## Main definitions

* `AArch64.Table.WellFormed` — the rules for one table.
* `AArch64.Table.Shows` — a defect of one table is present.

## Main results

* `AArch64.Table.validate_outcome` — an accepted table is well formed, a reported defect is present.
* `AArch64.Table.WellFormed.not_shows` — a well-formed table shows no defect.
-/

set_option autoImplicit false

namespace AArch64

namespace Table

/-- The rules for one table: 1 to 16 distinct bits of the word are sampled, there are 1 to 100
entries, an explicit pattern has one symbol `0`, `1` or `x` for each sampled bit, and the catch-all
is the last entry but not the first. -/
structure WellFormed (t : Table) : Prop where
  bits_pos : 1 ≤ t.bits.length
  bits_le : t.bits.length ≤ 16
  bits_nodup : t.bits.Nodup
  bits_lt : ∀ b ∈ t.bits, b < 32
  entries_pos : 1 ≤ t.mapping.length
  entries_le : t.mapping.length ≤ 100
  pattern_length : ∀ e ∈ t.explicit, e.1.length = t.bits.length
  pattern_symbols : ∀ e ∈ t.explicit, ∀ c ∈ e.1.toList, c = '0' ∨ c = '1' ∨ c = 'x'
  otherwise_last : ∀ (i : Nat) (target : String),
    t.mapping[i]? = some (otherwisePattern, target) → i ≠ 0 ∧ i + 1 = t.mapping.length

/-- A defect that concerns one table only is present in a table. -/
def Shows (t : Table) : Defect → Prop
  | .noSampledBits node => t.name = node ∧ t.bits = []
  | .tooManySampledBits node count => t.name = node ∧ t.bits.length = count ∧ 16 < count
  | .bitOutOfRange node bit => t.name = node ∧ bit ∈ t.bits ∧ 32 ≤ bit
  | .duplicateSampledBit node bit => t.name = node ∧ 2 ≤ t.bits.count bit
  | .noPatterns node => t.name = node ∧ t.mapping = []
  | .tooManyPatterns node count => t.name = node ∧ t.mapping.length = count ∧ 100 < count
  | .patternLength node pattern length expected =>
    t.name = node ∧ (∃ target, (pattern, target) ∈ t.explicit) ∧ pattern.length = length ∧
      t.bits.length = expected ∧ length ≠ expected
  | .invalidSymbol node pattern symbol =>
    t.name = node ∧ (∃ target, (pattern, target) ∈ t.explicit) ∧ symbol ∈ pattern.toList ∧
      symbol ≠ '0' ∧ symbol ≠ '1' ∧ symbol ≠ 'x'
  | .otherwiseFirst node =>
    t.name = node ∧ ∃ target, t.mapping[0]? = some (otherwisePattern, target)
  | .otherwiseNotLast node => t.name = node ∧
    ∃ i target, t.mapping[i]? = some (otherwisePattern, target) ∧ i + 1 < t.mapping.length
  | _ => False

/-- A well-formed table shows no defect. -/
theorem WellFormed.not_shows {t : Table} (h : t.WellFormed) (d : Defect) : ¬ t.Shows d := by
  intro hd
  cases d with
  | noSampledBits => exact absurd h.bits_pos (by simp [hd.2])
  | tooManySampledBits => exact absurd h.bits_le (by have := hd.2; omega)
  | bitOutOfRange node bit => exact absurd (h.bits_lt bit hd.2.1) (by have := hd.2.2; omega)
  | duplicateSampledBit node bit =>
    exact absurd (List.nodup_iff_count.1 h.bits_nodup bit) (by have := hd.2; omega)
  | noPatterns => exact absurd h.entries_pos (by simp [hd.2])
  | tooManyPatterns => exact absurd h.entries_le (by have := hd.2; omega)
  | patternLength node pattern length expected =>
    obtain ⟨-, ⟨target, he⟩, hlen, hexp, hne⟩ := hd
    exact hne (hlen ▸ hexp ▸ h.pattern_length _ he)
  | invalidSymbol node pattern symbol =>
    obtain ⟨-, ⟨target, he⟩, hmem, h0, h1, hx⟩ := hd
    rcases h.pattern_symbols _ he symbol hmem with h | h | h
    · exact h0 h
    · exact h1 h
    · exact hx h
  | otherwiseFirst node =>
    obtain ⟨-, target, h0⟩ := hd
    exact (h.otherwise_last 0 target h0).1 rfl
  | otherwiseNotLast node =>
    obtain ⟨-, i, target, hi, hlt⟩ := hd
    exact absurd (h.otherwise_last i target hi).2 (by omega)
  | duplicateNode => exact hd
  | unknownTarget => exact hd
  | unmappedSlot => exact hd
  | cycle => exact hd
  | unknownRoot => exact hd
  | missingBaseRoot => exact hd

/-! ## The checks in turn -/

/-- The check of sampled bits, behind those that were seen already. -/
theorem checkBits_outcome (node : String) (seen bits : List Nat) :
    Outcome (checkBits node seen bits)
      (fun _ => bits.Nodup ∧ ∀ b ∈ bits, b < 32 ∧ b ∉ seen)
      (fun d => (∃ b ∈ bits, 32 ≤ b ∧ d = .bitOutOfRange node b) ∨
        ∃ b ∈ bits, (b ∈ seen ∨ 2 ≤ bits.count b) ∧ d = .duplicateSampledBit node b) := by
  induction bits generalizing seen with
  | nil => simp [checkBits, Outcome]
  | cons b bits ih =>
    rw [checkBits]
    refine Outcome.guard (fun hb => .inl ⟨b, by simp, hb, rfl⟩) fun hb => ?_
    refine Outcome.guard (fun hs => .inr ⟨b, by simp, .inl hs, rfl⟩) fun hs => ?_
    refine (ih (b :: seen)).mono ?_ ?_
    · rintro _ ⟨hnodup, hall⟩
      refine ⟨List.nodup_cons.2 ⟨fun hmem => (hall b hmem).2 (by simp), hnodup⟩, ?_⟩
      intro c hc
      rcases List.mem_cons.1 hc with rfl | hc
      · exact ⟨by simpa [wordBits] using hb, hs⟩
      · exact ⟨(hall c hc).1, fun h => (hall c hc).2 (List.mem_cons_of_mem _ h)⟩
    · rintro d (⟨c, hc, h32, rfl⟩ | ⟨c, hc, hseen, rfl⟩)
      · exact .inl ⟨c, List.mem_cons_of_mem _ hc, h32, rfl⟩
      · refine .inr ⟨c, List.mem_cons_of_mem _ hc, ?_, rfl⟩
        have one : 1 ≤ bits.count c := List.count_pos_iff.2 hc
        rw [List.count_cons]
        rcases hseen with hseen | hcount
        · rcases List.mem_cons.1 hseen with rfl | hseen
          · exact .inr (by simp; omega)
          · exact .inl hseen
        · exact .inr (by omega)

/-- The check of one explicit pattern. -/
theorem checkPattern_outcome (node : String) (count : Nat) (pattern : String) :
    Outcome (checkPattern node count pattern)
      (fun _ => pattern.length = count ∧ ∀ c ∈ pattern.toList, c = '0' ∨ c = '1' ∨ c = 'x')
      (fun d => (pattern.length ≠ count ∧
          d = .patternLength node pattern pattern.length count) ∨
        ∃ c ∈ pattern.toList, (c ≠ '0' ∧ c ≠ '1' ∧ c ≠ 'x') ∧
          d = .invalidSymbol node pattern c) := by
  rw [checkPattern]
  refine Outcome.guard (fun h => .inl ⟨h, rfl⟩) fun hlen => ?_
  cases hfind : pattern.toList.find? (!isSymbol ·) with
  | some c =>
    have hc := List.find?_some hfind
    refine Outcome.error_iff.2 (.inr ⟨c, List.mem_of_find?_eq_some hfind, ?_, rfl⟩)
    simpa [isSymbol, not_or] using hc
  | none =>
    refine Outcome.ok_iff.2 ⟨not_not.1 hlen, fun c hc => ?_⟩
    have sym := List.find?_eq_none.1 hfind c hc
    rw [Bool.not_eq_true', Bool.not_eq_false] at sym
    exact of_decide_eq_true sym

/-- What holds of a list of entries, of which the first is the first of the table or not, when each
passes. -/
def EntriesPass (count : Nat) (first : Bool) (entries : List (String × String)) : Prop :=
  (∀ e ∈ entries, e.1 ≠ otherwisePattern →
      e.1.length = count ∧ ∀ c ∈ e.1.toList, c = '0' ∨ c = '1' ∨ c = 'x') ∧
    ∀ (i : Nat) (target : String), entries[i]? = some (otherwisePattern, target) →
      (first → i ≠ 0) ∧ i + 1 = entries.length

/-- What is wrong with a list of entries that do not pass. -/
def EntriesFail (node : String) (count : Nat) (first : Bool) (entries : List (String × String)) :
    Defect → Prop
  | .patternLength n pattern length expected => n = node ∧ expected = count ∧
    (∃ target, (pattern, target) ∈ entries ∧ pattern ≠ otherwisePattern) ∧
      pattern.length = length ∧ length ≠ expected
  | .invalidSymbol n pattern symbol => n = node ∧
    (∃ target, (pattern, target) ∈ entries ∧ pattern ≠ otherwisePattern) ∧
      symbol ∈ pattern.toList ∧ symbol ≠ '0' ∧ symbol ≠ '1' ∧ symbol ≠ 'x'
  | .otherwiseFirst n => n = node ∧ first ∧
    ∃ target, entries[0]? = some (otherwisePattern, target)
  | .otherwiseNotLast n => n = node ∧
    ∃ i target, entries[i]? = some (otherwisePattern, target) ∧ i + 1 < entries.length
  | _ => False

/-- What is wrong behind the first entry is wrong with all entries. -/
theorem EntriesFail.cons {node : String} {count : Nat} {first : Bool} {e : String × String}
    {rest : List (String × String)} {d : Defect} (h : EntriesFail node count false rest d) :
    EntriesFail node count first (e :: rest) d := by
  cases d with
  | patternLength =>
    obtain ⟨hn, hc, ⟨target, hmem, hne⟩, hlen⟩ := h
    exact ⟨hn, hc, ⟨target, List.mem_cons_of_mem _ hmem, hne⟩, hlen⟩
  | invalidSymbol =>
    obtain ⟨hn, ⟨target, hmem, hne⟩, hsym⟩ := h
    exact ⟨hn, ⟨target, List.mem_cons_of_mem _ hmem, hne⟩, hsym⟩
  | otherwiseFirst => exact absurd h.2.1 (by simp)
  | otherwiseNotLast =>
    obtain ⟨hn, i, target, hi, hlt⟩ := h
    exact ⟨hn, i + 1, target, by simpa using hi, by simpa using hlt⟩
  | _ => exact h

/-- The check of entries in order. -/
theorem checkEntries_outcome (node : String) (count : Nat) (first : Bool)
    (entries : List (String × String)) :
    Outcome (checkEntries node count first entries) (fun _ => EntriesPass count first entries)
      (EntriesFail node count first entries) := by
  induction entries generalizing first with
  | nil => simp [checkEntries, Outcome, EntriesPass]
  | cons e rest ih =>
    obtain ⟨pattern, target⟩ := e
    simp only [checkEntries]
    split
    · next hother =>
      subst hother
      refine Outcome.guard (fun hf => ⟨rfl, hf, target, rfl⟩) fun hf => ?_
      refine Outcome.guard (fun hr => ⟨rfl, 0, target, rfl, ?_⟩) fun hr => ?_
      · simpa using List.length_pos_iff.2 hr
      · obtain rfl := not_not.1 hr
        refine Outcome.ok_iff.2 ⟨by simp, fun i t hi => ?_⟩
        obtain rfl : i = 0 := by
          by_contra h0
          simp [h0] at hi
        simpa using hf
    · next hother =>
      refine Outcome.bind ((checkPattern_outcome node count pattern).mono (fun _ h => h) ?_) ?_
      · rintro d (⟨hlen, rfl⟩ | ⟨c, hc, hsym, rfl⟩)
        · exact ⟨rfl, rfl, ⟨target, by simp, hother⟩, rfl, hlen⟩
        · exact ⟨rfl, ⟨target, by simp, hother⟩, hc, hsym⟩
      · rintro _ ⟨hlen, hsym⟩
        refine (ih false).mono ?_ fun _ => EntriesFail.cons
        rintro _ ⟨hpat, hlast⟩
        refine ⟨fun e he hne => ?_, fun i t hi => ?_⟩
        · rcases List.mem_cons.1 he with rfl | he
          · exact ⟨hlen, hsym⟩
          · exact hpat e he hne
        · cases i with
          | zero =>
            simp only [List.getElem?_cons_zero, Option.some.injEq, Prod.mk.injEq] at hi
            exact absurd hi.1 hother
          | succ i => simpa using (hlast i t (by simpa using hi)).2

/-- A table that passes validation is well formed, and a defect that is reported is present. -/
theorem validate_outcome (t : Table) :
    Outcome t.validate (fun _ => t.WellFormed) t.Shows := by
  unfold validate
  refine Outcome.guard (fun h => ⟨rfl, List.length_eq_zero_iff.1 h⟩) fun hpos => ?_
  refine Outcome.guard (fun h => ⟨rfl, rfl, h⟩) fun hle => ?_
  refine Outcome.bind ((checkBits_outcome t.name [] t.bits).mono (fun _ h => h) ?_) ?_
  · rintro d (⟨b, hb, h32, rfl⟩ | ⟨b, hb, hcount, rfl⟩)
    · exact ⟨rfl, hb, h32⟩
    · exact ⟨rfl, by simpa using hcount⟩
  · rintro _ ⟨hnodup, hlt⟩
    refine Outcome.guard (fun h => ⟨rfl, List.length_eq_zero_iff.1 h⟩) fun hepos => ?_
    refine Outcome.guard (fun h => ⟨rfl, rfl, h⟩) fun hele => ?_
    have mem_explicit : ∀ e, e ∈ t.explicit ↔ e ∈ t.mapping ∧ e.1 ≠ otherwisePattern := fun e => by
      simp [explicit]
    refine (checkEntries_outcome t.name t.bits.length true t.mapping).mono ?_ ?_
    · rintro _ ⟨hpat, hlast⟩
      exact {
        bits_pos := by omega
        bits_le := by simpa [maxSampledBits] using hle
        bits_nodup := hnodup
        bits_lt := fun b hb => (hlt b hb).1
        entries_pos := by omega
        entries_le := by simpa [maxPatterns] using hele
        pattern_length := fun e he =>
          (hpat e ((mem_explicit e).1 he).1 ((mem_explicit e).1 he).2).1
        pattern_symbols := fun e he =>
          (hpat e ((mem_explicit e).1 he).1 ((mem_explicit e).1 he).2).2
        otherwise_last := fun i target hi => ⟨(hlast i target hi).1 rfl, (hlast i target hi).2⟩ }
    · intro d hd
      cases d with
      | patternLength node pattern length expected =>
        obtain ⟨rfl, rfl, ⟨target, hmem⟩, hlen⟩ := hd
        exact ⟨rfl, ⟨target, (mem_explicit _).2 hmem⟩, hlen.1, rfl, hlen.2⟩
      | invalidSymbol node pattern symbol =>
        obtain ⟨rfl, ⟨target, hmem⟩, hsym⟩ := hd
        exact ⟨rfl, ⟨target, (mem_explicit _).2 hmem⟩, hsym⟩
      | otherwiseFirst node => exact ⟨hd.1.symm, hd.2.2⟩
      | otherwiseNotLast node => exact ⟨hd.1.symm, hd.2⟩
      | _ => exact hd.elim

end Table

end AArch64
