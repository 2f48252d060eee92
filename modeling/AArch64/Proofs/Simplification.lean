import AArch64.Proofs.Building
import AArch64.Proofs.Lockstep

/-!
# What simplification does to a graph

Simplification changes nothing but the size of a graph, and it misses nothing: of the tables that
it leaves, none has one child only, and none has two children one of which takes the slots of a
sub-cube.

## Main definitions

* `AArch64.Lowered.IsUniform` — the slots of a table hold one child.
* `AArch64.Lowered.IsSplit` — they hold two children, one of them in a sub-cube.
* `AArch64.Builder.Compiled` — the cells that compilation appends.

## Main results

* `AArch64.Lowered.isSome_simplify?_iff` — a table is simplified exactly if it is of these forms.
* `AArch64.Builder.Arena.Grows.compiled` — every cell comes from a category or a table.
* `AArch64.Builder.build_simplified_plain` — graphs with and without simplification.
-/

set_option autoImplicit false

namespace AArch64

namespace Lowered

/-! ## Tables that can be simplified -/

/-- All slots of a table hold one child. -/
def IsUniform (children : Array Nat) : Prop :=
  ∃ a, ∀ c ∈ children, c = a

/-- The slots of a table hold exactly two children, and those that hold one of them are a sub-cube:
the slots `i` with `i &&& mask = value`. -/
def IsSplit (children : Array Nat) : Prop :=
  ∃ a ∈ children, ∃ b ∈ children, a ≠ b ∧ (∀ c ∈ children, c = a ∨ c = b) ∧
    ∃ mask value : Nat, ∀ i < children.size, i &&& mask = value ↔ children[i]? = some a

variable {mask : Word} {children : Array Nat} {n a b : Nat}

/-- A test for a child of a table is found exactly if the slots of the child are a sub-cube. -/
theorem isSome_test?_iff (hsize : children.size = 2 ^ n) (hn : n ≤ 32) (ha : a ∈ children) :
    (test? mask children a b).isSome ↔
      ∃ m v : Nat, ∀ i < children.size, i &&& m = v ↔ children[i]? = some a := by
  have nonempty : slotsOf children a ≠ [] := by
    obtain ⟨i, hi⟩ := Array.mem_iff_getElem?.1 ha
    exact List.ne_nil_of_mem (mem_slotsOf.2 hi)
  have inside : ∀ i ∈ slotsOf children a, i < 2 ^ n := fun i hi =>
    hsize ▸ lt_size_of_mem_slotsOf hi
  rw [test?, Option.isSome_map, hsize,
    SubCube.isSome_of?_iff hn nonempty (nodup_slotsOf children a) inside]
  simp only [mem_slotsOf]

/-- If the slots of one of two children are a sub-cube, the table is simplified, whichever of them
is tried first. -/
theorem isSome_simplify?_of_isSplit (hsize : children.size = 2 ^ n) (hn : n ≤ 32)
    (h : IsSplit children) : (simplify? mask children).isSome := by
  obtain ⟨a, ha, b, hb, hne, htwo, hcube⟩ := h
  have h0 : 0 < children.size := hsize ▸ Nat.two_pow_pos n
  have htest : ∀ other, (test? mask children a other).isSome := fun other =>
    (isSome_test?_iff hsize hn ha).2 hcube
  have hfirst : children[0]?.getD 0 ∈ children := by simp [Array.getElem?_eq_getElem h0]
  simp only [simplify?]
  split
  · rfl
  · next second hsecond =>
    have hmem : second ∈ children := Array.mem_toList_iff.1 (List.mem_of_find?_eq_some hsecond)
    have hother : second ≠ children[0]?.getD 0 := by simpa using List.find?_some hsecond
    generalize children[0]?.getD 0 = first at hfirst hother
    have pair : (first = a ∧ second = b) ∨ (first = b ∧ second = a) := by
      have := htwo first hfirst
      have := htwo second hmem
      grind
    have all : children.toList.all (fun c => c = first ∨ c = second) = true := by
      refine List.all_eq_true.2 fun c hc => decide_eq_true ?_
      have := htwo c (Array.mem_toList_iff.1 hc)
      grind
    rw [if_pos all, Option.isSome_map, Option.isSome_or, Bool.or_eq_true]
    rcases pair with ⟨rfl, -⟩ | ⟨-, rfl⟩
    · exact .inl (htest second)
    · exact .inr (htest first)

/-- **Simplification is exact.** A filled table is simplified if all of its slots hold one child, or
if they hold exactly two and the slots of one of them are a sub-cube, and otherwise it is not. -/
theorem isSome_simplify?_iff (hsize : children.size = 2 ^ n) (hn : n ≤ 32) :
    (simplify? mask children).isSome ↔ IsUniform children ∨ IsSplit children := by
  have h0 : 0 < children.size := hsize ▸ Nat.two_pow_pos n
  constructor
  · intro h
    obtain ⟨l, hl⟩ := Option.isSome_iff_exists.1 h
    rcases cases_of_simplify? h0 hl with ⟨a, -, -, hone⟩ | ⟨a, ha, b, hb, hne, htwo, c, -, hc⟩
    · exact .inl ⟨a, hone⟩
    · have found : (test? mask children a b).isSome := by rw [hc]; rfl
      exact .inr ⟨a, ha, b, hb, hne, htwo, (isSome_test?_iff hsize hn ha).1 found⟩
  · rintro (⟨a, hone⟩ | hsplit)
    · have none_other : children.toList.find? (· ≠ children[0]?.getD 0) = none := by
        rw [List.find?_eq_none]
        intro c hc
        have hfirst : children[0]?.getD 0 ∈ children := by simp [Array.getElem?_eq_getElem h0]
        simp [hone c (Array.mem_toList_iff.1 hc), hone _ hfirst]
      simp only [simplify?, none_other, Option.isSome_some]
    · exact isSome_simplify?_of_isSplit hsize hn hsplit

end Lowered

namespace Builder

open Tables

/-! ## The cells of a graph -/

/-- A cell that compilation appends: a leaf, or what a filled table is lowered to. -/
inductive Compiled (tables : List SlotTable) (optimize : Bool) : Cell → Prop
  /-- The name of a category. -/
  | leaf (c : Category) : Compiled tables optimize (.leaf c)
  /-- The name of a table that becomes a cell. -/
  | lowered {t : SlotTable} {children : Array Nat} {c : Cell} (ht : t ∈ tables)
      (hsize : children.size = 2 ^ t.width)
      (hlower : Lowered.ofChildren t.sampledMask children optimize = .cell c) :
      Compiled tables optimize c

variable {tables : List SlotTable} {optimize : Bool}

/-- Recording a name appends at most one cell, that of the name. -/
theorem Arena.Step.compiled {a b : Arena} (hstep : Arena.Step tables optimize a b)
    (h : ∀ c ∈ a.cells, Compiled tables optimize c) :
    ∀ c ∈ b.cells, Compiled tables optimize c := by
  intro d hd
  cases hstep with
  | leaf _ _ =>
    rcases Array.mem_push.1 hd with hd | rfl
    · exact h d hd
    · exact .leaf _
  | cell _ hname hres hlower =>
    rcases Array.mem_push.1 hd with hd | rfl
    · exact h d hd
    · exact .lowered hname.mem hres.size_eq hlower
  | forward _ _ _ _ => exact h d hd

/-- Every cell of an arena that names were recorded in comes from one of them. -/
theorem Arena.Grows.compiled {a : Arena} (h : Arena.Grows tables optimize {} a) :
    ∀ c ∈ a.cells, Compiled tables optimize c := by
  induction h with
  | refl => simp
  | tail _ hstep ih => exact hstep.compiled ih

namespace Compiled

/-- Without simplification no cell is a test. -/
theorem ne_test {c : Cell} (h : Compiled tables false c) (mask value : Word)
    (matched unmatched : Nat) : c ≠ .test mask value matched unmatched := by
  rintro rfl
  cases h with
  | lowered _ _ hlower => cases hlower

/-- With simplification a table that becomes a table is one that cannot be simplified. -/
theorem not_isUniform_and_not_isSplit (hvalid : ∀ t ∈ tables, t.Valid) {sampler : Sampler}
    {children : Array Nat} (h : Compiled tables true (.table sampler children)) :
    ¬ Lowered.IsUniform children ∧ ¬ Lowered.IsSplit children := by
  cases h with
  | @lowered t cs _ ht hsize hlower =>
    simp only [Lowered.ofChildren, if_true] at hlower
    cases hs : Lowered.simplify? t.sampledMask cs with
    | none =>
      rw [hs, Option.getD_none, Lowered.cell.injEq, Cell.table.injEq] at hlower
      obtain ⟨-, rfl⟩ := hlower
      rw [← not_or, ← Lowered.isSome_simplify?_iff hsize (hvalid t ht).width_le, hs]
      exact Bool.false_ne_true
    | some l =>
      rw [hs, Option.getD_some] at hlower
      subst hlower
      have h0 : 0 < cs.size := hsize ▸ Nat.two_pow_pos _
      rcases Lowered.cases_of_simplify? h0 hs with ⟨_, _, hl, _⟩ | ⟨_, _, _, _, _, _, c, hl, hc⟩
      · cases hl
      · obtain rfl := Lowered.cell.inj hl
        obtain ⟨_, -, hcell⟩ := Option.map_eq_some_iff.1 hc
        cases hcell

end Compiled

/-! ## Main result -/

/-- Graphs that were built from the same tables and roots classify words alike: each as the
category that the tables lead the word to, and there is only one. -/
theorem Interprets.classify_eq {tables : List Table} {roots : Isa → Option String} {g h : Graph}
    (hread : Readable tables) (hg : Interprets tables roots g) (hh : Interprets tables roots h)
    (w : Word) (isa : Isa) : g.classify w isa = h.classify w isa := by
  obtain ⟨root, c, hroot, hc, -, -, hgc⟩ := hg.classify w isa
  obtain ⟨root', d, hroot', hd, -, -, hhd⟩ := hh.classify w isa
  obtain rfl : root = root' := Option.some.inj (hroot.symm.trans hroot')
  rw [hgc, hhd, hread.leads_unique hc hd]

/-- **Simplification changes nothing but the size, and misses nothing.** For any tables and
registrations, a graph is built with simplification if and only if one is built without, and a
defect that is reported is the same. The simplified graph has no more cells and classifies every
word alike. The plain graph has no tests, and the simplified one has no table whose slots all hold
one child and none whose slots hold exactly two children, one of them in a sub-cube.

**Proof sketch.** The two compilations go through the same names and fill the same slots
(`lockstep_build`). Both graphs interpret the tables, which lead a word to one category only. Every
cell is a leaf or what a table was lowered to (`Arena.Grows.compiled`), and a table that stays one
could not be simplified (`Lowered.isSome_simplify?_iff`). -/
theorem build_simplified_plain (tables : List Table) (registrations : List (Isa × String)) :
    Lockstep (fun simplified plain =>
        simplified.size ≤ plain.size ∧
        (∀ w isa, simplified.classify w isa = plain.classify w isa) ∧
        (∀ mask value matched unmatched, .test mask value matched unmatched ∉ plain.cells) ∧
        ∀ sampler children, .table sampler children ∈ simplified.cells →
          ¬ Lowered.IsUniform children ∧ ¬ Lowered.IsSplit children)
      (ofCalls tables registrations true).build (ofCalls tables registrations false).build := by
  have together := lockstep_build (register { tables } registrations)
  refine together.mono fun g h hg hh hsize => ⟨hsize, fun w isa => ?_, ?_, ?_⟩
  · obtain ⟨haccepts, hinterprets⟩ := accepts_and_interprets hg
    exact hinterprets.classify_eq haccepts.toReadable (accepts_and_interprets hh).2 w isa
  · obtain ⟨a, hgrows, hcells⟩ := grows_of_build hh
    intro mask value matched unmatched hmem
    rw [← hcells] at hmem
    exact (hgrows.compiled _ hmem).ne_test mask value matched unmatched rfl
  · obtain ⟨a, hgrows, hcells⟩ := grows_of_build hg
    have hread := (accepts_and_interprets hg).1.toReadable
    intro sampler children hmem
    rw [← hcells] at hmem
    exact (hgrows.compiled _ hmem).not_isUniform_and_not_isSplit fun t ht => hread.valid ht

end Builder

end AArch64
