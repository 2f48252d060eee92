import AArch64.Proofs.Classification
import Mathlib.Tactic.IntervalCases

/-!
# The regions of the data processing classes

Classification is read backwards: a word of a class has the bits that lead to the class. A table
that may lead to a class has a target that may, so the tables on the ways to a class are few, and
the one that follows on a way is the only one of them that the table before it has as a target.

## Main definitions

* `AArch64.EncodingIndex.lineage` — the names that may lead to a category.
* `AArch64.EncodingIndex.Ways` — what the tables on the ways to the classes do.

## Main results

* `AArch64.Tables.Readable.exists_pick_of_leads` — a way through the tables, taken back one step.
* `AArch64.EncodingIndex.fields_of_moveWide` and its kin — the fixed fields of the words of a class.
-/

set_option autoImplicit false

namespace AArch64

/-! ## Ways through tables -/

/-- The target of a word is that of an entry. -/
theorem Table.exists_of_target? {t : Table} {w : Word} {target : String}
    (h : t.target? w = some target) : ∃ e ∈ t.mapping, e.2 = target := by
  rw [target?] at h
  split at h
  · next e he =>
    exact ⟨e, (List.mem_filter.1 (List.mem_of_find?_eq_some he)).1, Option.some.inj h⟩
  · exact Builder.mem_mapping_of_otherwise? h

namespace Tables

variable {tables : List Table} {names : List String} {w : Word} {c : Category}

/-- Every table that has one of some names as a target has one of these names itself. -/
def Closed (tables : List Table) (names : List String) : Prop :=
  ∀ t ∈ tables, (∃ e ∈ t.mapping, e.2 ∈ names) → t.name ∈ names

/-- Whether names are closed can be decided. -/
instance (tables : List Table) (names : List String) : Decidable (Closed tables names) :=
  inferInstanceAs (Decidable (∀ t ∈ tables, (∃ e ∈ t.mapping, e.2 ∈ names) → t.name ∈ names))

/-- The names that lead to one of some names are among them. -/
theorem Leads.mem_of_closed {name : String} (h : Leads tables w name c)
    (hclosed : Closed tables names) (hc : c.name ∈ names) : name ∈ names := by
  induction h with
  | category c => exact hc
  | table ht htarget _ ih =>
    obtain ⟨e, he, rfl⟩ := Table.exists_of_target? htarget
    exact hclosed _ ht ⟨e, he, ih hc⟩

/-- A table that leads to a category has a target for the values of its sampled bits that leads
there too. -/
theorem Readable.exists_pick_of_leads (h : Readable tables) (hclosed : Closed tables names)
    (hc : c.name ∈ names) {t : Table} (ht : t ∈ tables) (hleads : Leads tables w t.name c) :
    ∃ target ∈ t.pick? (t.bits.map w.getLsbD), target ∈ names ∧ Leads tables w target c := by
  generalize hname : t.name = name at hleads
  cases hleads with
  | category c => exact absurd hname.symm (h.name_ne t ht c)
  | table hu htarget hleads =>
    obtain rfl := h.eq_of_name_eq ht hu hname
    rw [Table.target?_eq_pick?] at htarget
    exact ⟨_, htarget, hleads.mem_of_closed hclosed hc, hleads⟩

end Tables

namespace EncodingIndex

variable {w : Word} {c : Category}

/-- The tables of the encoding index can be read. -/
theorem readable_tables : Tables.Readable tables :=
  (Builder.accepts_and_interprets build_builder).1.toReadable

/-- Names, with those of the tables that have one of them as a target. -/
def withParents (names : List String) : List String :=
  names ++ (tables.filter fun t => t.mapping.any fun e => e.2 ∈ names).map (·.name)

/-- The names that may lead to a category. No way is longer than three tables. -/
def lineage (c : Category) : List String :=
  withParents (withParents (withParents [c.name]))

/-- The classes of data processing with an immediate. -/
def immediateClasses : List Category :=
  [.addSubImmediate, .logicalImmediate, .moveWide, .bitfield, .extract]

/-- The classes of data processing with a shifted or extended register. -/
def registerClasses : List Category :=
  [.logicalShifted, .addSubShifted, .addSubExtended]

/-- The bits 28 to 23 of the words of a class of data processing with an immediate. -/
def immediateOpcode : Category → BitVec 6
  | .addSubImmediate => 0b100010#6
  | .logicalImmediate => 0b100100#6
  | .moveWide => 0b100101#6
  | .bitfield => 0b100110#6
  | _ => 0b100111#6

/-- The bits 28 to 24 of the words of a class of data processing with a register. -/
def registerOpcode : Category → BitVec 5
  | .logicalShifted => 0b01010#5
  | _ => 0b01011#5

/-- What the opcode of a class leads to: the table that checks the words of the class, or the class
itself. -/
def region : Category → String
  | .logicalImmediate => logicalImmediateClass.name
  | .moveWide => moveWideClass.name
  | .bitfield => bitfieldClass.name
  | .extract => extractClass.name
  | .logicalShifted => logicalShiftedClass.name
  | .addSubShifted => addSubShiftedClass.name
  | .addSubExtended => addSubExtendedClass.name
  | c => c.name

/-- What is read off the tables on the ways to the classes: for each table, the values of its
sampled bits with which it goes on towards a class. -/
structure Ways : Prop where
  closed : ∀ c ∈ immediateClasses ++ registerClasses, Tables.Closed tables (lineage c)
  root_immediate : ∀ c ∈ immediateClasses, ∀ b₃ b₂ b₁ b₀, ∀ t ∈ root.pick? [b₃, b₂, b₁, b₀],
    t ∈ lineage c → [b₃, b₂, b₁] = [5, 4, 3].map (immediateOpcode c).getLsbD ∧
      t = dataProcessingImmediate.name
  immediate : ∀ c ∈ immediateClasses, ∀ b₂ b₁ b₀,
    ∀ t ∈ dataProcessingImmediate.pick? [b₂, b₁, b₀], t ∈ lineage c →
      [b₂, b₁, b₀] = [2, 1, 0].map (immediateOpcode c).getLsbD ∧ t = region c
  root_register : ∀ c ∈ registerClasses, ∀ b₃ b₂ b₁ b₀, ∀ t ∈ root.pick? [b₃, b₂, b₁, b₀],
    t ∈ lineage c → [b₂, b₁, b₀] = [3, 2, 1].map (registerOpcode c).getLsbD ∧
      t = dataProcessingRegister.name
  register : ∀ c ∈ registerClasses, ∀ o b₄ b₀ s₁ s₀ n,
    ∀ t ∈ dataProcessingRegister.pick? [o, b₄, b₀, s₁, s₀, n], t ∈ lineage c →
      [b₄, b₀] = [4, 0].map (registerOpcode c).getLsbD ∧ t = region c ∧
        (c = .logicalShifted ∨ n = decide (c = .addSubExtended))
  logicalImmediate : ∀ s n, ∀ t ∈ logicalImmediateClass.pick? [s, n],
    t ∈ lineage .logicalImmediate → (s || !n) = true
  moveWide : ∀ s o₁ o₀ h₁, ∀ t ∈ moveWideClass.pick? [s, o₁, o₀, h₁],
    t ∈ lineage .moveWide → (o₁ || !o₀) = true ∧ (s || !h₁) = true
  bitfield : ∀ s o₁ o₀ n, ∀ t ∈ bitfieldClass.pick? [s, o₁, o₀, n],
    t ∈ lineage .bitfield → (!o₁ || !o₀) = true ∧ n = s
  extract : ∀ s o₁ o₀ n o, ∀ t ∈ extractClass.pick? [s, o₁, o₀, n, o],
    t ∈ lineage .extract → o₁ = false ∧ o₀ = false ∧ n = s ∧ o = false
  logicalShifted : ∀ s b, ∀ t ∈ logicalShiftedClass.pick? [s, b],
    t ∈ lineage .logicalShifted → (s || !b) = true
  addSubShifted : ∀ s s₁ s₀ b, ∀ t ∈ addSubShiftedClass.pick? [s, s₁, s₀, b],
    t ∈ lineage .addSubShifted → (!s₁ || !s₀) = true ∧ (s || !b) = true
  addSubExtended : ∀ s₁ s₀, ∀ v : BitVec 3,
    ∀ t ∈ addSubExtendedClass.pick? [s₁, s₀, v.getLsbD 2, v.getLsbD 1, v.getLsbD 0],
      t ∈ lineage .addSubExtended → s₁ = false ∧ s₀ = false ∧ v.toNat ≤ 4

/-- The tables of the encoding index do so, as going through the values of the sampled bits
shows. -/
theorem ways : Ways where
  closed := by decide +kernel
  root_immediate := by decide +kernel
  immediate := by decide +kernel
  root_register := by decide +kernel
  register := by decide +kernel
  logicalImmediate := by decide +kernel
  moveWide := by decide +kernel
  bitfield := by decide +kernel
  extract := by decide +kernel
  logicalShifted := by decide +kernel
  addSubShifted := by decide +kernel
  addSubExtended := by decide +kernel

/-- The name of a category is in its lineage. -/
theorem name_mem_lineage : c.name ∈ lineage c :=
  List.mem_append_left _ (List.mem_append_left _ (List.mem_append_left _ (.head _)))

/-- A table on a way to a class is followed by one on that way. -/
theorem exists_pick_of_leads (hc : c ∈ immediateClasses ++ registerClasses) {t : Table}
    (ht : t ∈ tables) (h : Tables.Leads tables w t.name c) :
    ∃ target ∈ t.pick? (t.bits.map w.getLsbD), target ∈ lineage c ∧
      Tables.Leads tables w target c :=
  readable_tables.exists_pick_of_leads (Ways.closed ways c hc) name_mem_lineage ht h

/-- A field has the value that its bits have. -/
theorem extractLsb'_eq_of_bits {lo n : Nat} {v : BitVec n}
    (h : ∀ i < n, w.getLsbD (lo + i) = v.getLsbD i) : w.extractLsb' lo n = v := by
  apply BitVec.eq_of_getLsbD_eq
  intro i hi
  rw [BitVec.getLsbD_extractLsb', h i hi, decide_eq_true hi, Bool.true_and]

/-! ## Data processing with an immediate -/

/-- The opcode of a class is that of its words, from the bits that the tables on the way sample. -/
theorem immediate_of_leads (hc : c ∈ immediateClasses) (h : Tables.Leads tables w rootName c) :
    w.extractLsb' 23 6 = immediateOpcode c ∧ Tables.Leads tables w (region c) c := by
  have hmem : c ∈ immediateClasses ++ registerClasses := List.mem_append_left _ hc
  obtain ⟨t, hpick, ht, h⟩ := exists_pick_of_leads (t := root) hmem (by simp [tables]) h
  obtain ⟨htop, rfl⟩ := Ways.root_immediate ways c hc _ _ _ _ t hpick ht
  obtain ⟨t, hpick, ht, h⟩ := exists_pick_of_leads hmem (by simp [tables]) h
  obtain ⟨hlow, rfl⟩ := Ways.immediate ways c hc _ _ _ t hpick ht
  simp only [List.map, List.cons.injEq, and_true] at htop hlow
  refine ⟨extractLsb'_eq_of_bits fun i hi => ?_, h⟩
  interval_cases i
  exacts [hlow.2.2, hlow.2.1, hlow.1, htop.2.2, htop.2.1, htop.1]

/-- The fixed bits of an addition of an immediate. -/
theorem fields_of_addSubImmediate (h : Tables.Leads tables w rootName .addSubImmediate) :
    w.extractLsb' 23 6 = 0b100010#6 :=
  (immediate_of_leads (by decide) h).1

/-- An element of 64 bits is for operations of 64 bits. -/
theorem fields_of_logicalImmediate (h : Tables.Leads tables w rootName .logicalImmediate) :
    w.extractLsb' 23 6 = 0b100100#6 ∧ (w.getLsbD 31 || !w.getLsbD 22) = true := by
  obtain ⟨hop, h⟩ := immediate_of_leads (by decide) h
  obtain ⟨t, hpick, ht, -⟩ := exists_pick_of_leads (by decide) (by simp [tables]) h
  exact ⟨hop, Ways.logicalImmediate ways _ _ t hpick ht⟩

/-- There is no second operation, and a register of 32 bits has two halfwords. -/
theorem fields_of_moveWide (h : Tables.Leads tables w rootName .moveWide) :
    w.extractLsb' 23 6 = 0b100101#6 ∧ (w.getLsbD 30 || !w.getLsbD 29) = true ∧
      (w.getLsbD 31 || !w.getLsbD 22) = true := by
  obtain ⟨hop, h⟩ := immediate_of_leads (by decide) h
  obtain ⟨t, hpick, ht, -⟩ := exists_pick_of_leads (by decide) (by simp [tables]) h
  exact ⟨hop, Ways.moveWide ways _ _ _ _ t hpick ht⟩

/-- There is no fourth operation, and `N` is the size. The positions are not looked at. -/
theorem fields_of_bitfield (h : Tables.Leads tables w rootName .bitfield) :
    w.extractLsb' 23 6 = 0b100110#6 ∧ (!w.getLsbD 30 || !w.getLsbD 29) = true ∧
      w.getLsbD 22 = w.getLsbD 31 := by
  obtain ⟨hop, h⟩ := immediate_of_leads (by decide) h
  obtain ⟨t, hpick, ht, -⟩ := exists_pick_of_leads (by decide) (by simp [tables]) h
  exact ⟨hop, Ways.bitfield ways _ _ _ _ t hpick ht⟩

/-- There is one operation, and `N` is the size. The position is not looked at. -/
theorem fields_of_extract (h : Tables.Leads tables w rootName .extract) :
    w.extractLsb' 23 6 = 0b100111#6 ∧ w.extractLsb' 29 2 = 0#2 ∧ w.getLsbD 22 = w.getLsbD 31 ∧
      w.getLsbD 21 = false := by
  obtain ⟨hop, h⟩ := immediate_of_leads (by decide) h
  obtain ⟨t, hpick, ht, -⟩ := exists_pick_of_leads (by decide) (by simp [tables]) h
  obtain ⟨h₁, h₀, hn, ho⟩ := Ways.extract ways _ _ _ _ _ t hpick ht
  refine ⟨hop, extractLsb'_eq_of_bits fun i hi => ?_, hn, ho⟩
  interval_cases i
  · exact h₀
  · exact h₁

/-! ## Data processing with a register -/

/-- The opcode of a class is that of its words. Bit 21 tells an extended register from a shifted
one. -/
theorem register_of_leads (hc : c ∈ registerClasses) (h : Tables.Leads tables w rootName c) :
    w.extractLsb' 24 5 = registerOpcode c ∧ Tables.Leads tables w (region c) c ∧
      (c = .logicalShifted ∨ w.getLsbD 21 = decide (c = .addSubExtended)) := by
  have hmem : c ∈ immediateClasses ++ registerClasses := List.mem_append_right _ hc
  obtain ⟨t, hpick, ht, h⟩ := exists_pick_of_leads (t := root) hmem (by simp [tables]) h
  obtain ⟨htop, rfl⟩ := Ways.root_register ways c hc _ _ _ _ t hpick ht
  obtain ⟨t, hpick, ht, h⟩ := exists_pick_of_leads hmem (by simp [tables]) h
  obtain ⟨hlow, rfl, hn⟩ := Ways.register ways c hc _ _ _ _ _ _ t hpick ht
  simp only [List.map, List.cons.injEq, and_true] at htop hlow
  refine ⟨extractLsb'_eq_of_bits fun i hi => ?_, h, hn⟩
  interval_cases i
  exacts [hlow.2, htop.2.2, htop.2.1, htop.1, hlow.1]

/-- A register of 32 bits is shifted by less than 32. -/
theorem fields_of_logicalShifted (h : Tables.Leads tables w rootName .logicalShifted) :
    w.extractLsb' 24 5 = 0b01010#5 ∧ (w.getLsbD 31 || !w.getLsbD 15) = true := by
  obtain ⟨hop, h, -⟩ := register_of_leads (by decide) h
  obtain ⟨t, hpick, ht, -⟩ := exists_pick_of_leads (by decide) (by simp [tables]) h
  exact ⟨hop, Ways.logicalShifted ways _ _ t hpick ht⟩

/-- There is no rotation, and a register of 32 bits is shifted by less than 32. -/
theorem fields_of_addSubShifted (h : Tables.Leads tables w rootName .addSubShifted) :
    w.extractLsb' 24 5 = 0b01011#5 ∧ w.getLsbD 21 = false ∧
      (!w.getLsbD 23 || !w.getLsbD 22) = true ∧ (w.getLsbD 31 || !w.getLsbD 15) = true := by
  obtain ⟨hop, h, hn⟩ := register_of_leads (by decide) h
  obtain ⟨t, hpick, ht, -⟩ := exists_pick_of_leads (by decide) (by simp [tables]) h
  exact ⟨hop, hn.resolve_left (by decide), Ways.addSubShifted ways _ _ _ _ t hpick ht⟩

/-- The shift is at most 4. -/
theorem fields_of_addSubExtended (h : Tables.Leads tables w rootName .addSubExtended) :
    w.extractLsb' 24 5 = 0b01011#5 ∧ w.extractLsb' 21 3 = 0b001#3 ∧
      (w.extractLsb' 10 3).toNat ≤ 4 := by
  obtain ⟨hop, h, hn⟩ := register_of_leads (by decide) h
  obtain ⟨t, hpick, ht, -⟩ := exists_pick_of_leads (by decide) (by simp [tables]) h
  have amount : [12, 11, 10].map w.getLsbD = [2, 1, 0].map (w.extractLsb' 10 3).getLsbD := by
    simp
  simp only [List.map, List.cons.injEq, and_true] at amount
  obtain ⟨h₁₂, h₁₁, h₁₀⟩ := amount
  simp only [addSubExtendedClass, List.map, h₁₂, h₁₁, h₁₀] at hpick
  obtain ⟨h₁, h₀, hle⟩ := Ways.addSubExtended ways _ _ _ t hpick ht
  refine ⟨hop, extractLsb'_eq_of_bits fun i hi => ?_, hle⟩
  interval_cases i
  · exact hn.resolve_left (by decide)
  · exact h₀
  · exact h₁

end EncodingIndex

end AArch64
