import AArch64.Proofs.Selection
import AArch64.Table.Slots
import Mathlib.Data.List.Induction
import Mathlib.Data.List.Sort

/-!
# Patterns in index order mean what they mean in table order

A pattern over the sampled bits is compiled to a mask and a value over slots. A word agrees with
the pattern, symbol by symbol, exactly when the masked bits of its slot are the value.

## Main results

* `AArch64.Pattern.mem_slots` — which slots a mask and a value select.
* `AArch64.Pattern.slot_and_mask_eq_value_iff` — the slot of a word against the mask and the value
  of a pattern.

## Implementation notes

The symbols of a pattern, sorted by bit, run from the highest sampled bit to the lowest. Reversed,
they stand beside the positions of the sampled mask, and bit `j` of the slot, of the mask and of
the value all belong to entry `j` of the reversed list.
-/

set_option autoImplicit false

namespace AArch64

namespace Pattern

/-! ## Slots of a mask and a value -/

/-- The slots of a mask and a value are the numbers that have the bits of the value wherever the
mask is set. -/
theorem mem_slots {mask value width i : Nat} :
    i ∈ slots mask value width ↔
      i < 2 ^ width ∧ ∀ j < width, mask.testBit j → i.testBit j = value.testBit j := by
  induction width generalizing i with
  | zero => simp [slots]
  | succ n ih =>
    have split : i ∈ slots mask value (n + 1) ↔
        (i ∈ slots mask value n ∧ (mask.testBit n → value.testBit n = false)) ∨
          (2 ^ n ≤ i ∧ i - 2 ^ n ∈ slots mask value n ∧ (mask.testBit n → value.testBit n)) := by
      have upper : (∃ a ∈ slots mask value n, a + 2 ^ n = i) ↔
          2 ^ n ≤ i ∧ i - 2 ^ n ∈ slots mask value n := by
        constructor
        · rintro ⟨a, ha, rfl⟩
          exact ⟨by omega, by simpa using ha⟩
        · rintro ⟨hi, ha⟩
          exact ⟨_, ha, by omega⟩
      simp only [slots]
      cases mask.testBit n <;> cases value.testBit n <;> simp [upper]
    rw [split, ih, ih, Nat.pow_succ]
    by_cases hi : i < 2 ^ n
    · have top : i.testBit n = false := Nat.testBit_lt_two_pow hi
      grind
    · by_cases hi' : i < 2 ^ n * 2
      · obtain ⟨r, rfl⟩ : ∃ r, i = 2 ^ n + r := ⟨i - 2 ^ n, by omega⟩
        have hr : r < 2 ^ n := by omega
        have top : (2 ^ n + r).testBit n = true := by
          rw [Nat.testBit_two_pow_add_eq, Nat.testBit_lt_two_pow hr]; rfl
        have low : ∀ j < n, (2 ^ n + r).testBit j = r.testBit j := fun j hj =>
          Nat.testBit_two_pow_add_gt hj r
        simp only [Nat.add_sub_cancel_left]
        grind
      · grind

/-- The slots of a mask and a value with no bits beside those of the mask. -/
theorem mem_slots_iff_and_eq {mask value width i : Nat} (hm : mask < 2 ^ width)
    (hv : value &&& mask = value) :
    i ∈ slots mask value width ↔ i < 2 ^ width ∧ i &&& mask = value := by
  rw [mem_slots]
  refine and_congr_right fun _ => ?_
  have bits := Bits.testBit_of_and_eq hv
  have above : ∀ j, width ≤ j → mask.testBit j = false := fun j => Bits.testBit_of_lt hm
  rw [Nat.eq_iff_testBit_eq]
  simp only [Nat.testBit_and]
  constructor
  · intro h j
    grind
  · intro h j _ hj
    have := h j
    rw [bits j]
    grind

/-! ## Sorting by bit -/

/-- Inserting a symbol keeps the others. -/
theorem insertByBit_perm (e : Nat × Char) (l : List (Nat × Char)) :
    (insertByBit e l).Perm (e :: l) := by
  induction l with
  | nil => exact .refl _
  | cons f rest ih =>
    simp only [insertByBit]
    split
    · exact .refl _
    · exact (ih.cons f).trans (.swap e f rest)

/-- Sorting keeps all symbols. -/
theorem sortByBit_perm (symbols : List (Nat × Char)) : (sortByBit symbols).Perm symbols := by
  have go : ∀ symbols sorted : List (Nat × Char),
      (symbols.foldl (fun sorted e => insertByBit e sorted) sorted).Perm (symbols ++ sorted) := by
    intro symbols
    induction symbols with
    | nil => exact fun _ => .refl _
    | cons e rest ih =>
      intro sorted
      exact (ih _).trans (((insertByBit_perm e sorted).append_left rest).trans
        List.perm_middle)
  simpa only [sortByBit, List.append_nil] using go symbols []

/-- A symbol is inserted in order. -/
theorem pairwise_insertByBit {e : Nat × Char} {l : List (Nat × Char)}
    (hl : l.Pairwise fun a b => b.1 ≤ a.1) :
    (insertByBit e l).Pairwise fun a b => b.1 ≤ a.1 := by
  induction l with
  | nil => simp [insertByBit]
  | cons f rest ih =>
    obtain ⟨hf, hrest⟩ := List.pairwise_cons.1 hl
    simp only [insertByBit]
    split
    · next h =>
      refine List.pairwise_cons.2 ⟨fun b hb => ?_, hl⟩
      rcases List.mem_cons.1 hb with rfl | hb
      · omega
      · have := hf b hb
        omega
    · next h =>
      refine List.pairwise_cons.2 ⟨fun b hb => ?_, ih hrest⟩
      rcases List.mem_cons.1 ((insertByBit_perm e rest).mem_iff.1 hb) with rfl | hb
      · omega
      · exact hf b hb

/-- Sorted symbols are in order of their bits, the highest first. -/
theorem pairwise_sortByBit (symbols : List (Nat × Char)) :
    (sortByBit symbols).Pairwise fun a b => b.1 ≤ a.1 := by
  have go : ∀ symbols sorted : List (Nat × Char), sorted.Pairwise (fun a b => b.1 ≤ a.1) →
      (symbols.foldl (fun sorted e => insertByBit e sorted) sorted).Pairwise
        fun a b => b.1 ≤ a.1 := by
    intro symbols
    induction symbols with
    | nil => exact fun _ h => h
    | cons e rest ih => exact fun sorted h => ih _ (pairwise_insertByBit h)
  exact go symbols [] .nil

/-- Sorting symbols of distinct bits puts the bits into the reverse order of the positions of a mask
that has these bits. -/
theorem reverse_sortByBit_fst {symbols : List (Nat × Char)} {n mask : Nat}
    (hnodup : (symbols.map (·.1)).Nodup)
    (hmask : ∀ i, i ∈ Bits.positions n mask ↔ i ∈ symbols.map (·.1)) :
    (sortByBit symbols).reverse.map (·.1) = Bits.positions n mask := by
  have perm : ((sortByBit symbols).reverse.map (·.1)).Perm (symbols.map (·.1)) :=
    ((List.reverse_perm _).trans (sortByBit_perm symbols)).map _
  have increasing : ((sortByBit symbols).reverse.map (·.1)).Pairwise (· ≤ ·) := by
    rw [List.map_reverse, List.pairwise_reverse, List.pairwise_map]
    exact pairwise_sortByBit symbols
  refine List.Perm.eq_of_pairwise (fun a b _ _ hab hba => Nat.le_antisymm hab hba) increasing
    ((Bits.pairwise_positions n mask).imp Nat.le_of_lt) ?_
  refine (List.perm_ext_iff_of_nodup (perm.nodup_iff.2 hnodup)
    ((Bits.pairwise_positions n mask).imp Nat.ne_of_lt)).2 fun i => ?_
  rw [perm.mem_iff, hmask]

/-! ## Masks and values -/

/-- One more symbol at the low end. -/
theorem maskValue_concat (cs : List Char) (c : Char) :
    maskValue (cs ++ [c]) =
      ((maskValue cs).1 <<< 1 ||| (if c = '0' ∨ c = '1' then 1 else 0),
        (maskValue cs).2 <<< 1 ||| (if c = '1' then 1 else 0)) := by
  simp [maskValue]

/-- Bit `j` of the mask is set if the symbol `j` places from the end fixes its bit. -/
theorem testBit_mask (cs : List Char) (j : Nat) :
    (maskValue cs).1.toNat.testBit j =
      (decide (j < 32) && cs.reverse[j]?.any fun c => c = '0' ∨ c = '1') := by
  rw [BitVec.testBit_toNat]
  induction cs using List.reverseRecOn generalizing j with
  | nil => simp [maskValue]
  | append_singleton cs c ih =>
    rw [maskValue_concat]
    cases j with
    | zero => by_cases h0 : c = '0' <;> by_cases h1 : c = '1' <;> simp [h0, h1]
    | succ j => by_cases h : c = '0' ∨ c = '1' <;> simp [h, ih] <;> grind

/-- Bit `j` of the value is set if the symbol `j` places from the end is `1`. -/
theorem testBit_value (cs : List Char) (j : Nat) :
    (maskValue cs).2.toNat.testBit j =
      (decide (j < 32) && cs.reverse[j]?.any fun c => c = '1') := by
  rw [BitVec.testBit_toNat]
  induction cs using List.reverseRecOn generalizing j with
  | nil => simp [maskValue]
  | append_singleton cs c ih =>
    rw [maskValue_concat]
    cases j with
    | zero => by_cases h : c = '1' <;> simp [h]
    | succ j => by_cases h : c = '1' <;> simp [h, ih] <;> grind

/-- The mask has no bits beyond the symbols. -/
theorem mask_lt (cs : List Char) : (maskValue cs).1.toNat < 2 ^ cs.length := by
  refine Nat.lt_pow_two_of_testBit _ fun j hj => ?_
  rw [testBit_mask, List.getElem?_eq_none (by simpa using hj)]
  simp

/-- The value has no bits beside those of the mask. -/
theorem value_and_mask (cs : List Char) :
    (maskValue cs).2.toNat &&& (maskValue cs).1.toNat = (maskValue cs).2.toNat := by
  refine Nat.eq_of_testBit_eq fun j => ?_
  rw [Nat.testBit_and, testBit_mask, testBit_value]
  cases cs.reverse[j]? with
  | none => simp
  | some c => by_cases h : c = '1' <;> simp [h]

/-! ## Words -/

/-- A slot has the masked bits of a pattern exactly when the word agrees with each of its symbols.

**Proof sketch.** Bit `j` of the slot is the bit of the word at position `j` of the sampled mask,
which is the bit of entry `j` of the reversed sorted symbols (`reverse_sortByBit_fst`). Bit `j` of
mask and value is read off the symbol of the same entry (`testBit_mask`, `testBit_value`). So the
comparison of all bits is a comparison of all entries, and sorting only permutes these. -/
theorem slot_and_mask_eq_value_iff {bits : List Nat} {pattern : String} {mask : Nat} (w : Word)
    (hlen : pattern.length = bits.length) (hshort : bits.length ≤ 32) (hnodup : bits.Nodup)
    (hsymbols : ∀ c ∈ pattern.toList, Table.isSymbol c)
    (hmask : ∀ i, i ∈ Bits.positions 32 mask ↔ i ∈ bits) :
    Bits.gather 32 w.toNat mask &&& (maskValue (ordered bits pattern)).1.toNat =
        (maskValue (ordered bits pattern)).2.toNat ↔
      Table.covers bits pattern w := by
  set symbols := bits.zip pattern.toList with hsyms
  have fst : symbols.map (·.1) = bits := by
    rw [hsyms]
    exact List.map_fst_zip (by rw [String.length_toList, hlen])
  set entries := (sortByBit symbols).reverse with hentries
  have perm : entries.Perm symbols := (List.reverse_perm _).trans (sortByBit_perm symbols)
  have hpos : entries.map (·.1) = Bits.positions 32 mask :=
    reverse_sortByBit_fst (fst ▸ hnodup) (fst ▸ hmask)
  have hcs : (ordered bits pattern).reverse = entries.map (·.2) := by
    rw [ordered, hentries, List.map_reverse]
  have hcount : entries.length ≤ 32 := by
    rw [perm.length_eq, ← List.length_map (f := (·.1)), fst]
    exact hshort
  -- the comparison at entry `j`
  have bitwise : (∀ j, (Bits.gather 32 w.toNat mask &&&
        (maskValue (ordered bits pattern)).1.toNat).testBit j =
          (maskValue (ordered bits pattern)).2.toNat.testBit j) ↔
      ∀ j (hj : j < entries.length),
        (w.getLsbD entries[j].1 && decide (entries[j].2 = '0' ∨ entries[j].2 = '1')) =
          decide (entries[j].2 = '1') := by
    refine forall_congr' fun j => ?_
    rw [Nat.testBit_and, Bits.testBit_gather, testBit_mask, testBit_value, hcs, ← hpos]
    by_cases hj : j < entries.length
    · have : j < 32 := by omega
      simp [hj, this, BitVec.testBit_toNat]
    · simp [hj]
  rw [Nat.eq_iff_testBit_eq, bitwise, Table.covers, List.all_eq_true, ← hsyms]
  have symbol : ∀ e ∈ symbols, (w.getLsbD e.1 && decide (e.2 = '0' ∨ e.2 = '1')) =
      decide (e.2 = '1') ↔ (e.2 = 'x' ∨ e.2 = if w.getLsbD e.1 then '1' else '0') := by
    intro e he
    have := hsymbols e.2 (List.of_mem_zip he).2
    simp only [Table.isSymbol, decide_eq_true_eq] at this
    rcases this with h | h | h <;> cases w.getLsbD e.1 <;> simp [h]
  constructor
  · intro h e he
    obtain ⟨j, hj, rfl⟩ := List.mem_iff_getElem.1 (perm.mem_iff.2 he)
    simpa using (symbol _ he).1 (h j hj)
  · intro h j hj
    have he := perm.mem_iff.1 (List.getElem_mem hj)
    exact (symbol _ he).2 (by simpa using h _ he)

end Pattern

end AArch64
