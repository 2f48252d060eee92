import AArch64.Proofs.Regions

/-!
# The capability state in the encoding index

The tables of the capability state are those of the base instruction set under other names, with
one more region. Where a word goes does not depend on names, so outside of this region the two
instruction sets lead every word to the same category, up to the categories that have a capability
variant.

## Main definitions

* `AArch64.Table.rename` — a table under other names.
* `AArch64.Category.inCapabilityState` — the variant of a category.
* `AArch64.EncodingIndex.capabilityName` — the name in the capability state of what a name stands
  for.

## Main results

* `AArch64.Tables.Leads.map` — tables that correspond to each other lead a word alike.
* `AArch64.EncodingIndex.classify_capabilityState` — the two classifications of a word.
-/

set_option autoImplicit false

namespace AArch64

/-! ## Tables under other names -/

namespace Table

/-- A table with its own name and those of its targets replaced. -/
def rename (f : String → String) (t : Table) : Table where
  name := f t.name
  bits := t.bits
  mapping := t.mapping.map fun e => (e.1, f e.2)

/-- A renamed table has the targets of the table, renamed: its patterns are the same. -/
theorem target?_rename (f : String → String) (t : Table) (w : Word) :
    (t.rename f).target? w = (t.target? w).map f := by
  have explicit : (t.rename f).explicit = t.explicit.map fun e => (e.1, f e.2) := by
    rw [Table.explicit, rename, List.filter_map]
    rfl
  have otherwise? : (t.rename f).otherwise? = t.otherwise?.map f := by
    rw [Table.otherwise?, rename, List.getLast?_map, Table.otherwise?]
    cases t.mapping.getLast? with
    | none => rfl
    | some e => by_cases he : e.1 = otherwisePattern <;> simp [Option.filter, he]
  rw [target?, target?, explicit, List.find?_map, otherwise?]
  have same : ((fun e : String × String => covers (t.rename f).bits e.1 w) ∘
      fun e : String × String => (e.1, f e.2)) = fun e => covers t.bits e.1 w := rfl
  rw [same]
  cases t.explicit.find? fun e => covers t.bits e.1 w <;> rfl

end Table

/-- Let names of tables and categories correspond to others. If every table has a table of the
corresponding name whose target for a word is the corresponding one, then names lead the word to
corresponding categories. -/
theorem Tables.Leads.map {tables tables' : List Table} {w : Word} {f : String → String}
    {g : Category → Category} (hcategory : ∀ c : Category, f c.name = (g c).name)
    (htable : ∀ t ∈ tables, ∃ u ∈ tables', u.name = f t.name ∧
      u.target? w = (t.target? w).map f)
    {name : String} {c : Category} (h : Leads tables w name c) :
    Leads tables' w (f name) (g c) := by
  induction h with
  | category c =>
    rw [hcategory]
    exact .category (g c)
  | @table t target c ht htarget _ ih =>
    obtain ⟨u, hu, hname, hu'⟩ := htable t ht
    rw [htarget, Option.map_some] at hu'
    rw [← hname]
    exact .table hu hu' ih

/-- What a category of the base instruction set is in the capability state, where addresses and the
targets of branches are capabilities. -/
def Category.inCapabilityState : Category → Category
  | .pcRelAddressing => .capabilityPcRelAddressing
  | .unconditionalBranchRegister => .capabilityBranchRegister
  | c => c

namespace EncodingIndex

variable {w : Word}

/-! ## The tables of the two instruction sets -/

/-- The names that are replaced in the capability state: the tables on the way to the two categories
with a variant, and these categories. -/
def capabilityNames : List (String × String) :=
  [(root.name, capabilityRoot.name),
    (dataProcessingImmediate.name, dataProcessingImmediateC64.name),
    (branchesExceptionSystem.name, branchesExceptionSystemC64.name),
    (Category.pcRelAddressing.name, Category.capabilityPcRelAddressing.name),
    (Category.unconditionalBranchRegister.name, Category.capabilityBranchRegister.name)]

/-- The name in the capability state of what a name stands for. -/
def capabilityName (name : String) : String :=
  (capabilityNames.lookup name).getD name

/-- The name of a category becomes the name of its category in the capability state. -/
theorem capabilityName_category (c : Category) :
    capabilityName c.name = c.inCapabilityState.name := by
  cases c <;> decide

/-- Every table below the top level of A64 has its counterpart in the capability state, row for
row. -/
theorem rename_mem_tables : ∀ t ∈ tables, t ≠ root → t.rename capabilityName ∈ tables := by
  decide +kernel

/-- The rows of the two top levels correspond to each other, except for one region. -/
theorem pick?_capabilityRoot : ∀ b₃ b₂ b₁ b₀, [b₃, b₂, b₁, b₀] ≠ [false, false, false, true] →
    capabilityRoot.pick? [b₃, b₂, b₁, b₀] =
      (root.pick? [b₃, b₂, b₁, b₀]).map capabilityName := by
  decide

/-- The region that only the capability state allocates is divided among three categories. -/
theorem pick?_capability : ∀ b₅ b₄ b₃ b₂ b₁ b₀,
    ∃ c ∈ [.capabilityBranchMemory, .capabilityArithmetic, .unimplemented],
      capability.pick? [b₅, b₄, b₃, b₂, b₁, b₀] = some (Category.name c) := by
  decide

/-- Outside of the region of capabilities, a word is led in the capability state where it is led in
A64. -/
theorem leads_capabilityState {c : Category} (hw : w.extractLsb' 25 4 ≠ 0b0001#4)
    (h : Tables.Leads tables w rootName c) :
    Tables.Leads tables w capabilityRootName c.inCapabilityState := by
  refine h.map capabilityName_category fun t ht => ?_
  by_cases htop : t = root
  · -- the top levels differ in the row of the region, which the word does not match
    subst htop
    refine ⟨capabilityRoot, by simp [tables], rfl, ?_⟩
    rw [Table.target?_eq_pick?, Table.target?_eq_pick?]
    refine pick?_capabilityRoot _ _ _ _ fun hbits => hw ?_
    simp only [List.cons.injEq, and_true] at hbits
    obtain ⟨h₃, h₂, h₁, h₀⟩ := hbits
    refine extractLsb'_eq_of_bits fun i hi => ?_
    interval_cases i
    exacts [h₀, h₁, h₂, h₃]
  · exact ⟨_, rename_mem_tables t ht htop, rfl, t.target?_rename capabilityName w⟩

/-- **The two instruction sets classify alike, except where they differ by design.** A word whose
bits 28 to 25 are `0001` is unallocated in A64, and in C64 it is a branch through memory, arithmetic
on capabilities or not classified any further. Any other word has the same category in both
instruction sets, except that addresses relative to the program counter and branches to a register
have categories of their own in C64.

**Proof sketch.** Outside of the region, C64 renames the tables of A64 (`rename_mem_tables`), and a
renamed table leads a word to the renamed target (`AArch64.Table.target?_rename`). Inside, the
tables are followed to their categories. -/
theorem classify_capabilityState (w : Word) :
    let a := graph.classify w .a64
    let c := graph.classify w .c64
    if w.extractLsb' 25 4 = 0b0001#4 then
      a = .unallocated ∧
        (c = .capabilityBranchMemory ∨ c = .capabilityArithmetic ∨ c = .unimplemented)
    else
      c = if a = .pcRelAddressing then .capabilityPcRelAddressing
        else if a = .unconditionalBranchRegister then .capabilityBranchRegister
        else a := by
  dsimp only
  split
  · next hw =>
    have bits : [28, 27, 26, 25].map w.getLsbD = [false, false, false, true] := by
      have field : [28, 27, 26, 25].map w.getLsbD =
          [3, 2, 1, 0].map (w.extractLsb' 25 4).getLsbD := by simp
      rw [field, hw]
      rfl
    have unallocated : Tables.Leads tables w rootName .unallocated :=
      .pick (t := root) (by simp [tables]) bits (by decide) (.category .unallocated)
    obtain ⟨c, hc, hpick⟩ := pick?_capability (w.getLsbD 31) (w.getLsbD 30) (w.getLsbD 29)
      (w.getLsbD 24) (w.getLsbD 23) (w.getLsbD 22)
    have below : Tables.Leads tables w capability.name c :=
      .pick (by simp [tables]) rfl hpick (.category c)
    have allocated : Tables.Leads tables w capabilityRootName c :=
      .pick (t := capabilityRoot) (by simp [tables]) bits (by decide) below
    have classified : graph.classify w .c64 = c := classify_eq_iff.2 allocated
    refine ⟨classify_eq_iff.2 unallocated, ?_⟩
    rw [classified]
    simpa using hc
  · next hw =>
    have leads : Tables.Leads tables w (name .a64) (graph.classify w .a64) :=
      classify_eq_iff.1 rfl
    have classified : graph.classify w .c64 = (graph.classify w .a64).inCapabilityState :=
      classify_eq_iff.2 (leads_capabilityState hw leads)
    rw [classified]
    cases graph.classify w .a64 <;> rfl

end EncodingIndex

end AArch64
