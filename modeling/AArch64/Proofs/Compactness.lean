import AArch64.Proofs.Simplification

/-!
# Compiled graphs are compact

The cells of a graph that was built are in topological order, no read of a slot misses its children,
and no category has two leaves. So a walk visits ever smaller positions, at most as many as there
are cells, and ends at a leaf. Without simplification there is one cell for each name that the roots
lead to: names and cells are in correspondence at every moment of the compilation.

## Main definitions

* `AArch64.Graph.Visits` — the positions that a walk visits.
* `AArch64.Graph.IsCompact` — the shape of a graph that was built.
* `AArch64.Builder.Arena.Lists` — the names of the cells, in order.

## Main results

* `AArch64.Graph.Visits.walk_eq` — counting steps, a walk takes as many as it visits positions.
* `AArch64.Builder.Arena.Step.exists_lists` — without simplification, to record a name appends the
  cell of the name.
* `AArch64.Builder.isCompact_and_lists_of_build` — the shape of the graphs that are built.
-/

set_option autoImplicit false

namespace AArch64

/-! ## The positions that a walk visits -/

namespace Graph

/-- The walk of a word visits positions, one after another, and ends at the leaf of a category. -/
inductive Visits (cells : Array Cell) (w : Word) : List Nat → Category → Prop
  /-- The position is that of a leaf. -/
  | leaf {i : Nat} {c : Category} (h : cells[i]? = some (.leaf c)) : Visits cells w [i] c
  /-- The walk goes on from the cell that the word is sent to. -/
  | step {i j : Nat} {is : List Nat} {cell : Cell} {c : Category} (h : cells[i]? = some cell)
      (hs : cell.Sends w j) (hj : Visits cells w (j :: is) c) : Visits cells w (i :: j :: is) c

variable {cells : Array Cell} {w : Word} {i : Nat} {is : List Nat} {c : Category}

/-- A walk that ends visits positions. -/
theorem Ends.exists_visits (h : Ends cells w i c) : ∃ is, Visits cells w (i :: is) c := by
  induction h with
  | leaf h => exact ⟨[], .leaf h⟩
  | step h hs _ ih =>
    obtain ⟨is, hj⟩ := ih
    exact ⟨_, .step h hs hj⟩

namespace Visits

/-- A walk visits ever smaller positions. -/
theorem pairwise (h : Visits cells w is c) (hcells : Ordered cells) : is.Pairwise (· > ·) := by
  induction h with
  | leaf h => exact List.pairwise_singleton _ _
  | step h hs _ ih =>
    have lt := hcells _ _ h _ hs.mem_successors
    refine List.pairwise_cons.2 ⟨fun k hk => ?_, ih⟩
    rcases List.mem_cons.1 hk with rfl | hk
    · exact lt
    · exact (List.rel_of_pairwise_cons ih hk).trans lt

/-- Ever smaller positions are no more than the first of them allows. -/
theorem length_le (h : Visits cells w (i :: is) c) (hcells : Ordered cells) : is.length ≤ i := by
  have below : ∀ k ∈ is, k < i := fun k hk => List.rel_of_pairwise_cons (h.pairwise hcells) hk
  have nodup : is.Nodup := (h.pairwise hcells).of_cons.imp fun lt => Nat.ne_of_gt lt
  have inside : is ⊆ List.range i := fun k hk => List.mem_range.2 (below k hk)
  simpa using nodup.length_le_of_subset inside

/-- Where steps are counted, the walk ends at the leaf once they are as many as the positions, and
not before. -/
theorem walk_eq {g : Graph} (h : Visits g.cells w (i :: is) c) (steps : Nat) :
    g.walk w steps i = if is.length < steps then some c else none := by
  generalize hvisited : i :: is = visited at h
  induction h generalizing i is steps with
  | leaf h =>
    obtain ⟨rfl, rfl⟩ := List.cons.inj hvisited
    cases steps with
    | zero => rfl
    | succ steps => simp [walk, h]
  | @step i j is' cell c h hs hj ih =>
    obtain ⟨rfl, rfl⟩ := List.cons.inj hvisited
    cases steps with
    | zero => rfl
    | succ steps =>
      have next := hs.next_eq
      have rest := ih steps rfl
      simp only [List.length_cons, Nat.add_lt_add_iff_right]
      cases cell with
      | leaf c => cases hs
      | table sampler children => simpa only [walk, h, next] using rest
      | test mask value matched unmatched => simpa only [walk, h, next] using rest

end Visits

/-- The shape of a graph that was built. -/
structure IsCompact (g : Graph) : Prop where
  /-- The roots are positions of cells. -/
  root_lt : ∀ isa, g.root isa < g.size
  /-- Cells refer to earlier cells only. -/
  ordered : ∀ (k : Nat) (cell : Cell), g.cells[k]? = some cell → ∀ i ∈ cell.successors, i < k
  /-- Every slot that a table reads off a word has a child, and the read passes its checks. -/
  slot_lt : ∀ sampler children, .table sampler children ∈ g.cells → ∀ w,
    sampler.read w = .ok (sampler.sample w) ∧ sampler.sample w < children.size
  /-- A category has one leaf. -/
  leaf_unique : ∀ (c : Category) (i j : Nat), g.cells[i]? = some (.leaf c) →
    g.cells[j]? = some (.leaf c) → i = j
  /-- The walk of a word visits ever smaller positions, no more than there are cells, until it ends
  at a leaf. -/
  walk : ∀ w isa, ∃ is c, Visits g.cells w (g.root isa :: is) c ∧
    (g.root isa :: is).Pairwise (· > ·) ∧ (g.root isa :: is).length ≤ g.size ∧
    (∀ steps, g.walk w steps (g.root isa) = if is.length < steps then some c else none) ∧
    g.classify? w isa = some c

end Graph

namespace Builder

open Tables

/-! ## Slots and leaves -/

/-- A table that was compiled has a child for every slot that it reads. -/
theorem Compiled.sample_lt {tables : List SlotTable} {optimize : Bool}
    (hvalid : ∀ t ∈ tables, t.Valid) {sampler : Sampler} {children : Array Nat}
    (h : Compiled tables optimize (.table sampler children)) (w : Word) :
    sampler.read w = .ok (sampler.sample w) ∧ sampler.sample w < children.size := by
  cases h with
  | @lowered t cs _ ht hsize hlower =>
    have valid := hvalid t ht
    have h0 : 0 < cs.size := hsize ▸ Nat.two_pow_pos _
    obtain ⟨same, all⟩ := Lowered.eq_of_ofChildren_eq_table h0 hlower
    have read := Sampler.read_ofMask valid.sampledMask_ne_zero w
    rw [← same] at read
    rw [Sampler.sample_eq_of_read read, all, hsize]
    exact ⟨read, valid.indexOf_lt w⟩

namespace Arena

variable {tables : List SlotTable} {optimize : Bool} {a b : Arena}

/-- The position of a leaf is the one that is recorded for its name. -/
theorem Grows.lookup_leaf (h : Grows tables optimize {} a) {i : Nat} {c : Category}
    (hi : a.cells[i]? = some (.leaf c)) : a.positions.lookup c.name = some i := by
  induction h generalizing i c with
  | refl => simp at hi
  | @tail a b _ hstep ih =>
    have kept : ∀ {i c}, a.cells[i]? = some (.leaf c) → b.positions.lookup c.name = some i :=
      fun hi => Grows.lookup (.single hstep) (ih hi)
    cases hstep with
    | leaf hfresh hname =>
      rw [Array.getElem?_push] at hi
      split at hi
      · next last =>
        obtain rfl := Cell.leaf.inj (Option.some.inj hi)
        obtain rfl := ofName?_eq_some_iff.1 hname
        rw [last]
        exact List.lookup_cons_self
      · exact kept hi
    | cell hfresh hname hres hlower =>
      rw [Array.getElem?_push] at hi
      split at hi
      · obtain rfl := Option.some.inj hi
        exact absurd hlower (Lowered.ofChildren_ne_leaf hres.size_pos c)
      · exact kept hi
    | forward hfresh hname hres hlower => exact kept hi

/-- Recorded names have recorded targets. -/
theorem Grows.lookup_of_live (h : Grows tables optimize {} a) {n m : String} {p : Nat}
    (hn : a.positions.lookup n = some p) (hm : Live tables n m) :
    ∃ q, a.positions.lookup m = some q := by
  obtain ⟨t, hname, hlive⟩ := hm
  induction h generalizing p with
  | refl => simp at hn
  | @tail a b _ hstep ih =>
    have kept : ∀ {p}, a.positions.lookup n = some p → ∃ q, b.positions.lookup m = some q :=
      fun hn => (ih hn).imp fun q hq => Grows.lookup (.single hstep) hq
    have resolved : ∀ {u : SlotTable} {children : Array Nat}, Names tables n u →
        Resolves u a.positions children → ∃ q, b.positions.lookup m = some q := by
      intro u children hu hres
      obtain rfl := hname.unique hu
      exact (hres.lookup_of_isLive hlive).imp fun q hq => Grows.lookup (.single hstep) hq
    cases hstep with
    | leaf hfresh hcategory =>
      rcases lookup_cons_cases hn with ⟨rfl, -⟩ | hn
      · rw [hname.not_category] at hcategory
        cases hcategory
      · exact kept hn
    | cell hfresh hu hres hlower | forward hfresh hu hres hlower =>
      rcases lookup_cons_cases hn with ⟨rfl, -⟩ | hn
      · exact resolved hu hres
      · exact kept hn

end Arena

/-! ## The names of the cells -/

/-- What a name is compiled to without simplification, where the cells have names: a category to a
leaf, and a table to a table that sends every word to the cell of its target. -/
inductive CompiledAs (tables : List Table) (names : Array String) : String → Cell → Prop
  /-- The name of a category. -/
  | category (c : Category) : CompiledAs tables names c.name (.leaf c)
  /-- The name of a table. -/
  | table {t : Table} {sampler : Sampler} {children : Array Nat} (ht : t ∈ tables)
      (hsends : ∀ w, ∃ target j, t.target? w = some target ∧ names[j]? = some target ∧
        (Cell.table sampler children).Sends w j) :
      CompiledAs tables names t.name (.table sampler children)

/-- The names of cells that are there stay when a cell is appended. -/
theorem getElem?_push_of_some {names : Array String} {i : Nat} {n : String}
    (h : names[i]? = some n) (name : String) : (names.push name)[i]? = some n := by
  have lt := (Array.getElem?_eq_some_iff.1 h).1
  rw [Array.getElem?_push, if_neg (Nat.ne_of_lt lt), h]

/-- A cell that is named last changes no name before it. -/
theorem CompiledAs.push {tables : List Table} {names : Array String} {n : String} {cell : Cell}
    (h : CompiledAs tables names n cell) (name : String) :
    CompiledAs tables (names.push name) n cell := by
  cases h with
  | category c => exact .category c
  | table ht hsends =>
    refine .table ht fun w => ?_
    obtain ⟨target, j, htarget, hj, hs⟩ := hsends w
    exact ⟨target, j, htarget, getElem?_push_of_some hj name, hs⟩

namespace Arena

/-- The cells of an arena have names: those that are recorded, each at its position. -/
structure Lists (tables : List Table) (a : Arena) (names : Array String) : Prop where
  size_eq : names.size = a.cells.size
  lookup_iff : ∀ {n : String} {i : Nat}, a.positions.lookup n = some i ↔ names[i]? = some n
  compiled : ∀ {i : Nat} {n : String} {cell : Cell}, names[i]? = some n → a.cells[i]? = some cell →
    CompiledAs tables names n cell

variable {tables : List Table} {a b : Arena} {names : Array String} {name : String}

/-- Cells have different names. -/
theorem Lists.nodup (h : Lists tables a names) : names.toList.Nodup := by
  rw [List.nodup_iff_getElem?_ne_getElem?]
  intro i j lt hj same
  rw [List.getElem?_eq_getElem hj] at same
  have first := h.lookup_iff.2 (Array.getElem?_toList.symm.trans same)
  have second := h.lookup_iff.2 (Array.getElem?_toList.symm.trans (List.getElem?_eq_getElem hj))
  exact Nat.ne_of_lt lt (Option.some.inj (first.symm.trans second))

/-- The cell of a name is appended. -/
theorem Lists.push (h : Lists tables a names) (hfresh : a.positions.lookup name = none)
    {cell : Cell} (hcell : CompiledAs tables names name cell) :
    Lists tables ⟨a.cells.push cell, (name, a.cells.size) :: a.positions⟩ (names.push name) where
  size_eq := by rw [Array.size_push, Array.size_push, h.size_eq]
  lookup_iff {n i} := by
    rw [← h.size_eq, Array.getElem?_push]
    constructor
    · intro hn
      rcases lookup_cons_cases hn with ⟨rfl, rfl⟩ | hn
      · rw [if_pos rfl]
      · rw [← Array.getElem?_push]
        exact getElem?_push_of_some (h.lookup_iff.1 hn) name
    · intro hn
      split at hn
      · next last =>
        rw [last, Option.some.inj hn]
        exact List.lookup_cons_self
      · have other : n ≠ name := by
          rintro rfl
          rw [h.lookup_iff.2 hn] at hfresh
          cases hfresh
        rw [List.lookup_cons, beq_eq_false_iff_ne.2 other]
        exact h.lookup_iff.2 hn
  compiled {i n c} hn hc := by
    rw [Array.getElem?_push] at hn hc
    rw [h.size_eq] at hn
    split at hn
    · next last =>
      rw [if_pos last] at hc
      rw [← Option.some.inj hn, ← Option.some.inj hc]
      exact hcell.push name
    · next other =>
      rw [if_neg other] at hc
      exact (h.compiled hn hc).push name

/-- Without simplification, to record a name appends the cell of the name. -/
theorem Step.exists_lists (hread : Readable tables) (h : Lists tables a names)
    (hstep : Step (tables.map .ofTable) false a b) : ∃ name, Lists tables b (names.push name) := by
  cases hstep with
  | @leaf name c hfresh hname =>
    obtain rfl := ofName?_eq_some_iff.1 hname
    exact ⟨c.name, h.push hfresh (.category c)⟩
  | @cell name s children c hfresh hname hres hlower =>
    obtain ⟨t, ht, rfl, rfl⟩ := hread.names_iff.1 hname
    have wellFormed := hread.wellFormed t ht
    have valid := SlotTable.valid_ofTable wellFormed
    obtain rfl := Lowered.cell.inj hlower
    refine ⟨t.name, h.push hfresh (.table ht fun w => ?_)⟩
    obtain ⟨target, child, htarget, hchild, hslot⟩ := hres.slot _ (valid.indexOf_lt w)
    rw [SlotTable.target?_ofTable wellFormed] at htarget
    exact ⟨target, child, htarget, h.lookup_iff.1 hchild,
      .table (Sampler.read_ofMask valid.sampledMask_ne_zero w) hslot⟩
  | forward hfresh hname hres hlower => cases hlower

/-- So every arena has names for its cells. -/
theorem Grows.exists_lists (hread : Readable tables)
    (h : Grows (tables.map .ofTable) false {} a) : ∃ names, Lists tables a names := by
  induction h with
  | refl => exact ⟨#[], rfl, by simp, by simp⟩
  | tail _ hstep ih =>
    obtain ⟨names, hnames⟩ := ih
    obtain ⟨name, hname⟩ := hstep.exists_lists hread hnames
    exact ⟨_, hname⟩

end Arena

/-! ## Graphs that are built -/

section Build

variable {tables : List Table} {roots : Isa → Option String} {optimize : Bool} {g : Graph}

/-- A graph that interprets tables and was made of an arena is compact. -/
theorem Origin.isCompact {a : Arena} (h : Origin tables roots optimize g a)
    (hread : Readable tables) (hinterprets : Interprets tables roots g) : g.IsCompact where
  root_lt := hinterprets.root_lt
  ordered := hinterprets.ordered
  slot_lt sampler children hmem := by
    rw [← h.cells_eq] at hmem
    exact (h.grows.compiled _ hmem).sample_lt fun t ht => hread.valid ht
  leaf_unique c i j hi hj := by
    rw [← h.cells_eq] at hi hj
    exact Option.some.inj ((h.grows.lookup_leaf hi).symm.trans (h.grows.lookup_leaf hj))
  walk w isa := by
    obtain ⟨root, c, -, -, hends, found, -⟩ := hinterprets.classify w isa
    obtain ⟨is, hvisits⟩ := hends.exists_visits
    have few := hvisits.length_le hinterprets.ordered
    have inside := hinterprets.root_lt isa
    refine ⟨is, c, hvisits, hvisits.pairwise hinterprets.ordered, ?_, hvisits.walk_eq, found⟩
    rw [List.length_cons]
    omega

/-- The names that are recorded are those that the roots lead to: the roots are recorded, and with a
name what it leads to. -/
theorem Origin.exists_lookup_iff {a : Arena} (h : Origin tables roots optimize g a)
    (hread : Readable tables) {n : String} :
    (∃ p, a.positions.lookup n = some p) ↔ Reachable tables roots n := by
  constructor
  · rintro ⟨p, hp⟩
    exact h.reachable hp
  · rintro ⟨isa, root, hstart, hleads⟩
    induction hleads with
    | refl =>
      obtain ⟨root', hstart', -, hp⟩ := h.root isa
      obtain rfl := Option.some.inj (hstart.symm.trans hstart')
      exact ⟨_, hp⟩
    | tail _ hlive ih =>
      obtain ⟨p, hp⟩ := ih
      exact h.grows.lookup_of_live hp (hread.live_iff.2 hlive)

end Build

/-- **Compiled graphs are compact.** A graph that is built, with or without simplification, has its
roots among its cells; a cell refers to earlier cells only; every slot that a table reads off a word
has a child; and a category has one leaf. So the walk of a word visits ever smaller positions, at
most as many as there are cells, and ends at a leaf. Without simplification the cells are in
correspondence with the names that the roots lead to, along the targets of explicit entries and of
catch-alls that are left a slot: each name is compiled to one cell, and there are no others.

**Proof sketch.** Names are recorded one after another, each of them once, behind the names that it
leads to (`AArch64.Builder.Arena.Grows`). A leaf is appended together with the name of its category,
and without simplification so is every other cell (`AArch64.Builder.Arena.Step.exists_lists`).
Compilation records nothing but what it is led to (`AArch64.Builder.compile_meets`), and recorded
names have recorded targets. -/
theorem isCompact_and_lists_of_build {tables : List Table} {registrations : List (Isa × String)}
    {optimize : Bool} {g : Graph} (h : (ofCalls tables registrations optimize).build = .ok g) :
    g.IsCompact ∧
      (optimize = false → ∃ names : Array String,
        names.toList.Nodup ∧ names.size = g.size ∧
        (∀ n, n ∈ names ↔ Reachable tables (lastRegistered? registrations) n) ∧
        ∀ (i : Nat) n cell, names[i]? = some n → g.cells[i]? = some cell →
          CompiledAs tables names n cell) := by
  obtain ⟨haccepts, hinterprets⟩ := accepts_and_interprets h
  obtain ⟨a, origin⟩ := exists_origin h
  rw [root?_ofCalls, tables_ofCalls] at haccepts hinterprets origin
  have hread := haccepts.toReadable
  refine ⟨origin.isCompact hread hinterprets, ?_⟩
  rintro rfl
  obtain ⟨names, hnames⟩ := origin.grows.exists_lists hread
  refine ⟨names, hnames.nodup, hnames.size_eq.trans (congrArg Array.size origin.cells_eq), ?_, ?_⟩
  · intro n
    rw [← origin.exists_lookup_iff hread, Array.mem_iff_getElem?]
    exact exists_congr fun i => hnames.lookup_iff.symm
  · intro i n cell hi hcell
    rw [← origin.cells_eq] at hcell
    exact hnames.compiled hi hcell

/-- The two tables have four categories, and the second table is shared by a slot of the first one
and the root of the capability state. -/
theorem isCompact_and_lists_of_build_twoTables :
    ∃ g, (ofCalls twoTables [(.a64, "Top"), (.c64, "Low")] false).build = .ok g ∧ g.size = 6 ∧
      g.IsCompact ∧ ∃ names : Array String, names.toList.Nodup ∧ names.size = g.size ∧
        (∀ n, n ∈ names ↔
          Reachable twoTables (lastRegistered? [(.a64, "Top"), (.c64, "Low")]) n) ∧
        ∀ (i : Nat) n cell, names[i]? = some n → g.cells[i]? = some cell →
          CompiledAs twoTables names n cell := by
  have size : (ofCalls twoTables [(.a64, "Top"), (.c64, "Low")] false).build.map Graph.size =
      .ok 6 := by
    decide +kernel
  cases hbuild : (ofCalls twoTables [(.a64, "Top"), (.c64, "Low")] false).build with
  | ok g =>
    rw [hbuild] at size
    obtain ⟨compact, names⟩ := isCompact_and_lists_of_build hbuild
    exact ⟨g, rfl, Except.ok.inj size, compact, names rfl⟩
  | error d =>
    rw [hbuild] at size
    cases size

end Builder

end AArch64
