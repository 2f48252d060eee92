import AArch64.Proofs.Pattern
import AArch64.Proofs.Validation
import AArch64.Table.Slots
import Mathlib.Data.List.Find

/-!
# Slots and words of a table

A table in index order has a target for each slot. It is the target that the table itself has for
the words of the slot, and every slot has a word.

## Main definitions

* `AArch64.SlotPattern.takes` — an entry matches a slot.
* `AArch64.SlotTable.target?` — the target of a slot, read off the entries in index order.
* `AArch64.SlotTable.Valid` — what validation leaves to be known of a table in index order.
* `AArch64.SlotTable.Describes` — an entry in index order against the pattern that it is made of.

## Main results

* `AArch64.SlotTable.target?_ofTable` — a word and its slot have one target.
* `AArch64.SlotTable.exists_indexOf_eq` — every slot is that of a word.
* `AArch64.SlotTable.index_order_of_validate` — a validated table in index order, entry by entry.
-/

set_option autoImplicit false

namespace AArch64

/-- Whether an entry matches a slot. -/
def SlotPattern.takes (p : SlotPattern) (i : Nat) : Bool :=
  i &&& p.mask.toNat = p.value.toNat

namespace SlotTable

/-- The target of a slot: that of the first explicit entry that matches it, else that of the
catch-all. -/
def target? (t : SlotTable) (i : Nat) : Option String :=
  match t.patterns.find? (·.takes i) with
  | some p => some p.target
  | none => t.otherwise?

/-- A table in index order looks at as many bits of the word as it is wide, and its entries fix bits
of slots only. -/
structure Valid (t : SlotTable) : Prop where
  width_pos : 1 ≤ t.width
  ones_eq : Bits.ones 32 t.sampledMask.toNat = t.width
  width_le : t.width ≤ 32
  mask_lt : ∀ p ∈ t.patterns, p.mask.toNat < 2 ^ t.width
  value_and_mask : ∀ p ∈ t.patterns, p.value.toNat &&& p.mask.toNat = p.value.toNat

namespace Valid

variable {t : SlotTable} (h : t.Valid)
include h

/-- A valid table samples at least one bit. -/
theorem sampledMask_ne_zero : t.sampledMask ≠ 0 := by
  intro h0
  have pos := h.width_pos
  rw [← h.ones_eq, h0] at pos
  exact absurd pos (by decide)

/-- The slot of a word is one of the slots. -/
theorem indexOf_lt (w : Word) : t.indexOf w < 2 ^ t.width := by
  rw [← h.ones_eq]
  exact Bits.gather_lt 32 _ _

/-- Every slot is that of a word. -/
theorem exists_indexOf_eq {i : Nat} (hi : i < 2 ^ t.width) : ∃ w, t.indexOf w = i := by
  refine ⟨BitVec.ofNat 32 (Bits.scatter 32 i t.sampledMask.toNat), ?_⟩
  have small := Bits.scatter_lt_two_pow i t.sampledMask.isLt
  rw [indexOf, BitVec.toNat_ofNat, Nat.mod_eq_of_lt small, Bits.gather_scatter, h.ones_eq,
    Nat.mod_eq_of_lt hi]

/-- The slots that an entry selects are those that it matches. -/
theorem mem_slots {p : SlotPattern} (hp : p ∈ t.patterns) {i : Nat} :
    i ∈ Pattern.slots p.mask.toNat p.value.toNat t.width ↔ i < 2 ^ t.width ∧ p.takes i := by
  rw [Pattern.mem_slots_iff_and_eq (h.mask_lt p hp) (h.value_and_mask p hp)]
  simp only [SlotPattern.takes, decide_eq_true_eq]

end Valid

/-! ## Tables read from input -/

/-- The sampled mask has the sampled bits of the word. -/
theorem getLsbD_sampledMask {t : Table} (h : ∀ b ∈ t.bits, b < 32) (i : Nat) :
    (ofTable t).sampledMask.getLsbD i = decide (i ∈ t.bits) := by
  have go : ∀ (bits : List Nat) (mask : Word), (∀ b ∈ bits, b < 32) →
      (bits.foldl (fun mask b => mask ||| .twoPow 32 b) mask).getLsbD i =
        (mask.getLsbD i || decide (i ∈ bits)) := by
    intro bits
    induction bits with
    | nil => simp
    | cons b bits ih =>
      intro mask hlt
      have hb := hlt b (by simp)
      rw [List.foldl_cons, ih _ fun c hc => hlt c (List.mem_cons_of_mem _ hc), BitVec.getLsbD_or,
        BitVec.getLsbD_twoPow, Bool.or_assoc]
      congr 1
      by_cases hi : i = b
      · simp [hi, hb]
      · simp [hi, Ne.symm hi]
  simpa [ofTable] using go t.bits 0 h

/-- The bits that are sampled are those of the table. -/
theorem mem_positions_sampledMask {t : Table} (h : ∀ b ∈ t.bits, b < 32) (i : Nat) :
    i ∈ Bits.positions 32 (ofTable t).sampledMask.toNat ↔ i ∈ t.bits := by
  rw [Bits.mem_positions, BitVec.testBit_toNat, getLsbD_sampledMask h, decide_eq_true_eq]
  exact ⟨fun hi => hi.2, fun hi => ⟨h i hi, hi⟩⟩

/-- A table that is well-formed is valid in index order. -/
theorem valid_ofTable {t : Table} (h : t.WellFormed) : (ofTable t).Valid := by
  have perm : (Bits.positions 32 (ofTable t).sampledMask.toNat).Perm t.bits := by
    have hp := Bits.pairwise_positions 32 (ofTable t).sampledMask.toNat
    rw [List.perm_ext_iff_of_nodup (hp.imp fun hlt => Nat.ne_of_lt hlt) h.bits_nodup]
    exact mem_positions_sampledMask h.bits_lt
  have length : ∀ e ∈ t.explicit, (Pattern.ordered t.bits e.1).length = t.bits.length := by
    intro e he
    rw [Pattern.ordered, List.length_map, (Pattern.sortByBit_perm _).length_eq, List.length_zip,
      String.length_toList, h.pattern_length e he, Nat.min_self]
  refine ⟨h.bits_pos, ?_, Nat.le_trans h.bits_le (by omega), ?_, ?_⟩
  · rw [← Bits.length_positions, perm.length_eq]
    rfl
  · intro p hp
    obtain ⟨e, he, rfl⟩ := List.mem_map.1 hp
    have hlt := Pattern.mask_lt (Pattern.ordered t.bits e.1)
    rwa [length e he] at hlt
  · intro p hp
    obtain ⟨e, -, rfl⟩ := List.mem_map.1 hp
    exact Pattern.value_and_mask (Pattern.ordered t.bits e.1)

/-- The entry that stands for an explicit entry of a table. -/
def patternOf (bits : List Nat) (e : String × String) : SlotPattern where
  mask := (Pattern.maskValue (Pattern.ordered bits e.1)).1
  value := (Pattern.maskValue (Pattern.ordered bits e.1)).2
  target := e.2

/-- The patterns in index order are those of the explicit entries. -/
theorem patterns_ofTable (t : Table) : (ofTable t).patterns = t.explicit.map (patternOf t.bits) :=
  rfl

/-- An explicit entry matches the words whose slots it matches in index order. -/
theorem takes_patternOf {t : Table} (h : t.WellFormed) {e : String × String} (he : e ∈ t.explicit)
    (w : Word) :
    (patternOf t.bits e).takes ((ofTable t).indexOf w) = Table.covers t.bits e.1 w := by
  have symbols : ∀ c ∈ e.1.toList, Table.isSymbol c := fun c hc =>
    decide_eq_true (h.pattern_symbols e he c hc)
  rw [Bool.eq_iff_iff, ← Pattern.slot_and_mask_eq_value_iff w (h.pattern_length e he)
    (Nat.le_trans h.bits_le (by omega)) h.bits_nodup symbols (mem_positions_sampledMask h.bits_lt)]
  exact decide_eq_true_iff

/-- The target of a word is the target of its slot. -/
theorem target?_ofTable {t : Table} (h : t.WellFormed) (w : Word) :
    (ofTable t).target? ((ofTable t).indexOf w) = t.target? w := by
  have find : (ofTable t).patterns.find? (·.takes ((ofTable t).indexOf w)) =
      (t.explicit.find? fun e => Table.covers t.bits e.1 w).map (patternOf t.bits) := by
    rw [patterns_ofTable, List.find?_map]
    exact congrArg _ (List.find?_congr fun e he => takes_patternOf h he w)
  rw [target?, find, Table.target?]
  cases t.explicit.find? fun e => Table.covers t.bits e.1 w <;> rfl

/-! ## Entry by entry -/

/-- A word agrees with a pattern if at every position the symbol is `x` or the sampled bit. -/
theorem covers_iff_forall_getElem {bits : List Nat} {pattern : String} (w : Word)
    (hlen : pattern.length = bits.length) :
    Table.covers bits pattern w ↔ ∀ i (hi : i < bits.length), pattern.toList[i]? = some 'x' ∨
      pattern.toList[i]? = some (if w.getLsbD bits[i] then '1' else '0') := by
  rw [Table.covers, List.all_eq_true, List.forall_mem_iff_getElem]
  have hcount : pattern.toList.length = bits.length := by rw [String.length_toList, hlen]
  have length : (bits.zip pattern.toList).length = bits.length := by simp [hcount]
  constructor
  · intro h i hi
    have := h i (length ▸ hi)
    rw [List.getElem?_eq_getElem (hcount ▸ hi)]
    simpa using this
  · intro h i hi
    have := h i (length ▸ hi)
    rw [List.getElem?_eq_getElem (by omega)] at this
    simpa using this

/-- What the entry in index order `p` has to do with the entry `e` of a table `t`, of which `s` is
the table in index order. The symbols of `e` can be put into index order, and are read as the mask
and the value of `p`. These fix bits of slots only, and the slot of a word has them exactly when the
word agrees with `e`, position by position. -/
structure Describes (t : Table) (s : SlotTable) (e : String × String) (p : SlotPattern) : Prop where
  target_eq : p.target = e.2
  symbols : ∃ cs, Pattern.checkedOrdered t.bits e.1 = .ok cs ∧
    Pattern.maskValue cs = (p.mask, p.value)
  matches_iff : ∀ w, s.indexOf w &&& p.mask.toNat = p.value.toNat ↔
    ∀ i (hi : i < t.bits.length), e.1.toList[i]? = some 'x' ∨
      e.1.toList[i]? = some (if w.getLsbD t.bits[i] then '1' else '0')
  value_and_mask : p.value.toNat &&& p.mask.toNat = p.value.toNat
  mask_lt : p.mask.toNat < 2 ^ s.width

/-- The pattern of an entry describes it. -/
theorem describes_patternOf {t : Table} (h : t.WellFormed) {e : String × String}
    (he : e ∈ t.explicit) : Describes t (ofTable t) e (patternOf t.bits e) where
  target_eq := rfl
  symbols := by
    refine ⟨Pattern.ordered t.bits e.1, ?_, rfl⟩
    rw [Pattern.checkedOrdered, decide_eq_true (h.pattern_length e he)]
    rfl
  matches_iff w := by
    rw [← covers_iff_forall_getElem w (h.pattern_length e he), ← takes_patternOf h he w]
    exact decide_eq_true_iff.symm
  value_and_mask := (valid_ofTable h).value_and_mask _ (List.mem_map_of_mem he)
  mask_lt := (valid_ofTable h).mask_lt _ (List.mem_map_of_mem he)

/-- A table that passes validation has a form in index order, with one entry for each explicit
pattern. An entry matches the slot of a word exactly when every symbol of its pattern is `x` or the
value of its sampled bit, and the slots of words are all numbers of as many bits as are sampled. -/
theorem index_order_of_validate {t : Table} (h : t.validate = .ok ()) :
    ∃ s, Node.ofTable t = .ok (.table s) ∧ s.width = t.bits.length ∧
      List.Forall₂ (Describes t s) t.explicit s.patterns ∧
      (∀ w, s.indexOf w < 2 ^ s.width) ∧ ∀ i < 2 ^ s.width, ∃ w, s.indexOf w = i := by
  have wf : t.WellFormed := Table.validate_outcome t |>.of_ok h
  have valid := valid_ofTable wf
  refine ⟨ofTable t, ?_, rfl, ?_, valid.indexOf_lt, fun i hi => valid.exists_indexOf_eq hi⟩
  · rw [Node.ofTable, h]
    rfl
  · rw [patterns_ofTable, List.forall₂_map_right_iff, List.forall₂_same]
    exact fun e he => describes_patternOf wf he

/-- Bits that are sampled out of order: in the word `0x81000000` bit 24 is set and bit 4 is clear,
which the first pattern asks for, and bit 31 is the top bit of its slot. -/
theorem index_order_of_validate_unsorted :
    let t : Table := { name := "Unsorted", bits := [24, 4, 31], mapping :=
      [("10x", "MoveWide"), ("x11", "Bitfield"), ("otherwise", "Extract")] }
    t.validate = .ok () ∧ ∃ s, Node.ofTable t = .ok (.table s) ∧ s.width = 3 ∧
      List.Forall₂ (Describes t s) [("10x", "MoveWide"), ("x11", "Bitfield")] s.patterns ∧
      s.patterns = [⟨0b011, 0b010, "MoveWide"⟩, ⟨0b101, 0b101, "Bitfield"⟩] ∧
      s.indexOf 0x81000000 = 0b110 ∧ (∃ w, s.indexOf w = 0b101) := by
  intro t
  have valid : t.validate = .ok () := by decide +kernel
  obtain ⟨s, hs, hwidth, entries, -, onto⟩ := index_order_of_validate valid
  have width : s.width = 3 := hwidth
  have explicit : t.explicit = [("10x", "MoveWide"), ("x11", "Bitfield")] := by decide +kernel
  refine ⟨valid, s, hs, width, explicit ▸ entries, ?_, ?_, onto _ (by rw [width]; decide)⟩
  all_goals
    obtain rfl : ofTable t = s := by
      rw [Node.ofTable, valid] at hs
      exact Node.table.inj (Except.ok.inj hs)
    decide +kernel

end SlotTable

end AArch64
