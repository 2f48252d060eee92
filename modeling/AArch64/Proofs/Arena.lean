import AArch64.Graph.Builder
import AArch64.Proofs.Lowering
import AArch64.Proofs.Slots
import Mathlib.Logic.Relation

/-!
# What the compiled cells are

Compilation appends to an arena, one name at a time: a name is recorded once, after the names that
it leads to. Everything that is known of a compiled name follows from this, by induction over the
names in the order in which they were recorded.

## Main definitions

* `AArch64.SlotTable.IsLive`, `AArch64.Builder.Live` — the targets that are compiled with a table.
* `AArch64.Builder.LeadsTo` — the category that a name leads a word to, read off the tables in index
  order.
* `AArch64.Builder.Sound` — a name leads every word somewhere, and never back to itself.
* `AArch64.Builder.Arena.Step`, `AArch64.Builder.Arena.Grows` — recording of names.

## Main results

* `AArch64.Builder.Arena.Grows.invariant` — recorded names are sound, and the walk from a recorded
  position ends where the name leads to.
* `AArch64.Builder.Sound.not_transGen` — a sound name is on no cycle.
-/

set_option autoImplicit false

namespace AArch64

/-- A target that is compiled with a table: that of an explicit entry, also of one that no slot is
left to, and that of the catch-all if some slot is left to it. -/
def SlotTable.IsLive (t : SlotTable) (target : String) : Prop :=
  (∃ p ∈ t.patterns, p.target = target) ∨
    (t.otherwise? = some target ∧ ∃ i < 2 ^ t.width, ∀ p ∈ t.patterns, p.takes i = false)

namespace Builder

/-! ## Names -/

/-- The table that a name stands for. -/
structure Names (tables : List SlotTable) (name : String) (t : SlotTable) : Prop where
  not_category : Category.ofName? name = none
  find_eq : tables.find? (·.name = name) = some t

namespace Names

variable {tables : List SlotTable} {name : String} {t u : SlotTable}

/-- The table that a name stands for is one of the tables. -/
theorem mem (h : Names tables name t) : t ∈ tables :=
  List.mem_of_find?_eq_some h.find_eq

/-- The table that a name stands for has the name. -/
theorem name_eq (h : Names tables name t) : t.name = name := by
  simpa using List.find?_some h.find_eq

/-- A name stands for one table. -/
theorem unique (h : Names tables name t) (h' : Names tables name u) : t = u :=
  Option.some.inj (h.find_eq.symm.trans h'.find_eq)

end Names

/-- A name is that of a table with a live target. -/
def Live (tables : List SlotTable) (name target : String) : Prop :=
  ∃ t, Names tables name t ∧ t.IsLive target

/-- The category that a name leads a word to. -/
inductive LeadsTo (tables : List SlotTable) (w : Word) : String → Category → Prop
  /-- The name is that of the category. -/
  | category {name : String} {c : Category} (h : Category.ofName? name = some c) :
      LeadsTo tables w name c
  /-- The name is that of a table, and the target of the word's slot leads to the category. -/
  | table {name target : String} {t : SlotTable} {c : Category} (hname : Names tables name t)
      (htarget : t.target? (t.indexOf w) = some target) (h : LeadsTo tables w target c) :
      LeadsTo tables w name c

/-- A name from which every way along live targets ends at a category, through tables all of whose
slots have a target. -/
inductive Sound (tables : List SlotTable) : String → Prop
  /-- The name is that of a category. -/
  | category {name : String} {c : Category} (h : Category.ofName? name = some c) : Sound tables name
  /-- The name is that of a table without gaps, and its live targets are sound. -/
  | table {name : String} {t : SlotTable} (hname : Names tables name t)
      (hslot : ∀ i < 2 ^ t.width, (t.target? i).isSome)
      (hlive : ∀ target, t.IsLive target → Sound tables target) : Sound tables name

namespace Sound

variable {tables : List SlotTable} {n m : String}

/-- The live targets of a sound name are sound. -/
theorem of_live (h : Sound tables n) (hm : Live tables n m) : Sound tables m := by
  obtain ⟨u, hu, hlive⟩ := hm
  cases h with
  | category h => simp [hu.not_category] at h
  | table hname _ hsound => exact hsound m (hname.unique hu ▸ hlive)

/-- What a sound name leads to along live targets is sound. -/
theorem of_reflTransGen (h : Sound tables n) (hm : Relation.ReflTransGen (Live tables) n m) :
    Sound tables m := by
  induction hm with
  | refl => exact h
  | tail _ hlive ih => exact ih.of_live hlive

/-- Every slot of the table of a sound name has a target. -/
theorem slot (h : Sound tables n) {t : SlotTable} (hname : Names tables n t) {i : Nat}
    (hi : i < 2 ^ t.width) : (t.target? i).isSome := by
  cases h with
  | category h => simp [hname.not_category] at h
  | table hname' hslot _ =>
    obtain rfl := hname.unique hname'
    exact hslot i hi

/-- A sound name is on no cycle: the next name on it would be sound, and on it. -/
theorem not_transGen (h : Sound tables n) : ¬ Relation.TransGen (Live tables) n n := by
  induction h with
  | category h =>
    intro hcycle
    obtain ⟨_, ⟨t, hname, _⟩, _⟩ := Relation.TransGen.head'_iff.1 hcycle
    simp [hname.not_category] at h
  | table hname _ _ ih =>
    intro hcycle
    obtain ⟨m, ⟨u, hu, hlive⟩, hback⟩ := Relation.TransGen.head'_iff.1 hcycle
    exact ih m (hname.unique hu ▸ hlive) (Relation.TransGen.tail' hback ⟨u, hu, hlive⟩)

end Sound

/-! ## Recording names -/

/-- The children of a table: slot for slot the recorded position of the target. Every explicit entry
has a recorded target, also one that no slot is left to. -/
structure Resolves (t : SlotTable) (positions : List (String × Nat)) (children : Array Nat) :
    Prop where
  size_eq : children.size = 2 ^ t.width
  explicit : ∀ p ∈ t.patterns, ∃ child, positions.lookup p.target = some child
  slot : ∀ i < 2 ^ t.width, ∃ target child,
    t.target? i = some target ∧ positions.lookup target = some child ∧ children[i]? = some child

/-- The live targets of a table whose children are found are recorded. -/
theorem Resolves.lookup_of_isLive {t : SlotTable} {positions : List (String × Nat)}
    {children : Array Nat} (h : Resolves t positions children) {target : String}
    (hlive : t.IsLive target) : ∃ child, positions.lookup target = some child := by
  rcases hlive with ⟨p, hp, rfl⟩ | ⟨hother, i, hi, hnone⟩
  · exact h.explicit p hp
  · obtain ⟨target', child, htarget, hchild, -⟩ := h.slot i hi
    have hfind : t.patterns.find? (·.takes i) = none :=
      List.find?_eq_none.2 fun p hp => by simp [hnone p hp]
    rw [SlotTable.target?, hfind, hother] at htarget
    obtain rfl := Option.some.inj htarget
    exact ⟨child, hchild⟩

/-- There is a child, since every table has a slot. -/
theorem Resolves.size_pos {t : SlotTable} {positions : List (String × Nat)}
    {children : Array Nat} (h : Resolves t positions children) : 0 < children.size := by
  rw [h.size_eq]
  exact Nat.two_pow_pos _

namespace Arena

/-- A name is recorded: a category as a leaf, a table as a cell or as one of its children. -/
inductive Step (tables : List SlotTable) (optimize : Bool) : Arena → Arena → Prop
  /-- The name of a category. -/
  | leaf {a : Arena} {name : String} {c : Category} (hfresh : a.positions.lookup name = none)
      (hname : Category.ofName? name = some c) :
      Step tables optimize a ⟨a.cells.push (.leaf c), (name, a.cells.size) :: a.positions⟩
  /-- The name of a table that becomes a cell. -/
  | cell {a : Arena} {name : String} {t : SlotTable} {children : Array Nat} {c : Cell}
      (hfresh : a.positions.lookup name = none) (hname : Names tables name t)
      (hres : Resolves t a.positions children)
      (hlower : Lowered.ofChildren t.sampledMask children optimize = .cell c) :
      Step tables optimize a ⟨a.cells.push c, (name, a.cells.size) :: a.positions⟩
  /-- The name of a table that its only child takes the place of. -/
  | forward {a : Arena} {name : String} {t : SlotTable} {children : Array Nat} {child : Nat}
      (hfresh : a.positions.lookup name = none) (hname : Names tables name t)
      (hres : Resolves t a.positions children)
      (hlower : Lowered.ofChildren t.sampledMask children optimize = .forward child) :
      Step tables optimize a ⟨a.cells, (name, child) :: a.positions⟩

/-- Names are recorded one after the other. -/
abbrev Grows (tables : List SlotTable) (optimize : Bool) : Arena → Arena → Prop :=
  Relation.ReflTransGen (Step tables optimize)

/-- What is known of an arena: cells refer to earlier cells, and every recorded name has a cell, is
sound, and leads every word where the walk from its cell ends. -/
structure Invariant (tables : List SlotTable) (a : Arena) : Prop where
  ordered : Graph.Ordered a.cells
  position_lt : ∀ {name : String} {p : Nat}, a.positions.lookup name = some p → p < a.cells.size
  sound : ∀ {name : String} {p : Nat}, a.positions.lookup name = some p → Sound tables name
  ends : ∀ {name : String} {p : Nat}, a.positions.lookup name = some p → ∀ w,
    ∃ c, Graph.Ends a.cells w p c ∧ LeadsTo tables w name c

variable {tables : List SlotTable} {optimize : Bool} {a b : Arena} {name : String} {p : Nat}

/-- A name that is recorded after another was recorded is the other name, or was recorded before. -/
theorem lookup_cons_cases {positions : List (String × Nat)} {other : String} {q : Nat}
    (h : ((name, p) :: positions).lookup other = some q) :
    (other = name ∧ q = p) ∨ positions.lookup other = some q := by
  rw [List.lookup_cons] at h
  split at h
  · next heq => exact .inl ⟨beq_iff_eq.1 heq, (Option.some.inj h).symm⟩
  · exact .inr h

/-- A name that was recorded keeps its position. -/
theorem Grows.lookup (h : Grows tables optimize a b) (hp : a.positions.lookup name = some p) :
    b.positions.lookup name = some p := by
  have keep : ∀ {positions : List (String × Nat)} {other : String} {q : Nat},
      positions.lookup other = none → positions.lookup name = some p →
        ((other, q) :: positions).lookup name = some p := by
    intro positions other q hfresh hp
    have hne : name ≠ other := by
      rintro rfl
      simp [hfresh] at hp
    rwa [List.lookup_cons, beq_eq_false_iff_ne.2 hne]
  induction h with
  | refl => exact hp
  | tail _ hstep ih =>
    cases hstep with
    | leaf hfresh _ => exact keep hfresh ih
    | cell hfresh _ _ _ => exact keep hfresh ih
    | forward hfresh _ _ _ => exact keep hfresh ih

/-- Nothing is recorded in the empty arena. -/
theorem invariant_empty (tables : List SlotTable) : Invariant tables {} where
  ordered := Graph.ordered_empty
  position_lt h := by simp at h
  sound h := by simp at h
  ends h := by simp at h

/-! ## The invariant -/

/-- Recording a name keeps the invariant, if it holds of the name and no walk is lost. -/
theorem Invariant.record (h : Invariant tables a) {cells : Array Cell}
    (hordered : Graph.Ordered cells) (hsize : a.cells.size ≤ cells.size)
    (hkeep : ∀ {w : Word} {i : Nat} {c : Category}, Graph.Ends a.cells w i c →
      Graph.Ends cells w i c)
    (hp : p < cells.size) (hsound : Sound tables name)
    (hends : ∀ w, ∃ c, Graph.Ends cells w p c ∧ LeadsTo tables w name c) :
    Invariant tables ⟨cells, (name, p) :: a.positions⟩ := by
  refine ⟨hordered, fun hq => ?_, fun hq => ?_, fun hq w => ?_⟩
  · rcases lookup_cons_cases hq with ⟨rfl, rfl⟩ | hq
    · exact hp
    · exact Nat.lt_of_lt_of_le (h.position_lt hq) hsize
  · rcases lookup_cons_cases hq with ⟨rfl, rfl⟩ | hq
    · exact hsound
    · exact h.sound hq
  · rcases lookup_cons_cases hq with ⟨rfl, rfl⟩ | hq
    · exact hends w
    · obtain ⟨c, hc, hleads⟩ := h.ends hq w
      exact ⟨c, hkeep hc, hleads⟩

section Table

variable {t : SlotTable} {children : Array Nat}

/-- A table whose children are found is sound. -/
theorem Invariant.sound_table (h : Invariant tables a) (hname : Names tables name t)
    (hres : Resolves t a.positions children) : Sound tables name := by
  refine .table hname (fun i hi => ?_) fun target hlive => ?_
  · obtain ⟨target, child, htarget, -⟩ := hres.slot i hi
    simp [htarget]
  · obtain ⟨child, hchild⟩ := hres.lookup_of_isLive hlive
    exact h.sound hchild

/-- A table whose children are found leads a word to where the walk from one child ends, the child
that lowering sends the word to. -/
theorem Invariant.ends_table (h : Invariant tables a) (ht : t.Valid)
    (hname : Names tables name t) (hres : Resolves t a.positions children) (optimize : Bool)
    (w : Word) :
    ∃ child c, (Lowered.ofChildren t.sampledMask children optimize).Dispatches w child ∧
      Graph.Ends a.cells w child c ∧ LeadsTo tables w name c := by
  obtain ⟨target, child, htarget, hlookup, hchild⟩ := hres.slot _ (ht.indexOf_lt w)
  obtain ⟨c, hc, hleads⟩ := h.ends hlookup w
  have hsize : children.size = 2 ^ Bits.ones 32 t.sampledMask.toNat := by
    rw [hres.size_eq, ht.ones_eq]
  have hones : Bits.ones 32 t.sampledMask.toNat ≤ 32 := ht.ones_eq.symm ▸ ht.width_le
  exact ⟨child, c, Lowered.dispatches_ofChildren ht.sampledMask_ne_zero hsize hones optimize hchild,
    hc, .table hname htarget hleads⟩

/-- The children of a table are positions of cells. -/
theorem Invariant.child_lt (h : Invariant tables a) (hres : Resolves t a.positions children)
    {j : Nat} (hj : j ∈ children) : j < a.cells.size := by
  obtain ⟨i, hi, rfl⟩ := Array.mem_iff_getElem.1 hj
  obtain ⟨target, child, -, hlookup, hchild⟩ := hres.slot i (hres.size_eq ▸ hi)
  rw [Array.getElem?_eq_getElem hi] at hchild
  rw [Option.some.inj hchild]
  exact h.position_lt hlookup

end Table

/-- Recording one name keeps the invariant. -/
theorem Step.invariant (hvalid : ∀ t ∈ tables, t.Valid) (h : Invariant tables a)
    (hstep : Step tables optimize a b) : Invariant tables b := by
  cases hstep with
  | leaf hfresh hname =>
    refine h.record (h.ordered.push (by simp [Cell.successors])) (by simp) (·.push _) (by simp)
      (.category hname) fun w => ?_
    exact ⟨_, .leaf (by simp), .category hname⟩
  | @cell name t children c hfresh hname hres hlower =>
    have inside : ∀ j ∈ c.successors, j < a.cells.size := fun j hj =>
      h.child_lt hres (Lowered.mem_of_mem_successors hres.size_pos hlower hj)
    refine h.record (h.ordered.push inside) (by simp) (·.push _) (by simp)
      (h.sound_table hname hres) fun w => ?_
    obtain ⟨child, c', hdispatch, hends, hleads⟩ :=
      h.ends_table (hvalid t hname.mem) hname hres optimize w
    rw [hlower] at hdispatch
    exact ⟨c', .step (by simp) hdispatch (hends.push c), hleads⟩
  | @forward name t children child hfresh hname hres hlower =>
    have inside : child < a.cells.size :=
      h.child_lt hres (Lowered.mem_of_ofChildren_eq_forward hres.size_pos hlower)
    refine h.record h.ordered (Nat.le_refl _) id inside (h.sound_table hname hres) fun w => ?_
    obtain ⟨child', c, hdispatch, hends, hleads⟩ :=
      h.ends_table (hvalid t hname.mem) hname hres optimize w
    rw [hlower] at hdispatch
    obtain rfl : child = child' := hdispatch
    exact ⟨c, hends, hleads⟩

/-- The invariant holds of every arena that names were recorded in, one after the other. -/
theorem Grows.invariant (hvalid : ∀ t ∈ tables, t.Valid) (h : Grows tables optimize {} a) :
    Invariant tables a := by
  induction h with
  | refl => exact invariant_empty tables
  | tail _ hstep ih => exact hstep.invariant hvalid ih

end Arena

end Builder

end AArch64
