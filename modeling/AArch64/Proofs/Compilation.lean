import AArch64.Proofs.Arena
import AArch64.Proofs.Outcome

/-!
# What compilation does

Compilation records the name it is given, after the names that it leads to. It fails only with a
cycle or with a gap in a table that it leads to, and the count of tables that are not on the path
never runs out.

## Main definitions

* `AArch64.Builder.Compile.Meets` — what a step of the compilation answers, and how it may fail.
* `AArch64.Builder.Filled` — the slots of a table after some of its entries.
* `AArch64.Builder.Blames` — a defect that compilation reports is present.

## Main results

* `AArch64.Builder.compileTable_meets` — what the compilation of one table does.
* `AArch64.Builder.compile_meets` — what the compilation of a name does.
-/

set_option autoImplicit false

namespace AArch64

namespace Builder

/-! ## Steps of the compilation -/

/-- From an arena, a step of the compilation answers and leaves an arena with the first property,
or fails with the second one. -/
def Compile.Meets {α : Type} (x : Compile α) (a : Arena) (Q : α → Arena → Prop)
    (E : Defect → Prop) : Prop :=
  Outcome (x.run a) (fun r => Q r.1 r.2) E

namespace Compile.Meets

variable {α β : Type} {x : Compile α} {a : Arena} {P Q : α → Arena → Prop} {E F : Defect → Prop}

/-- A step that meets its promise, and then one that goes on from there. -/
theorem bind {f : α → Compile β} {R : β → Arena → Prop} (h : x.Meets a P E)
    (hf : ∀ r b, P r b → (f r).Meets b R E) : (x >>= f).Meets a R E := by
  have run : (x >>= f).run a = x.run a >>= fun r => (f r.1).run r.2 := rfl
  rw [Meets, run]
  exact Outcome.bind h fun r hr => hf r.1 r.2 hr

/-- A computation that leaves the arena alone. -/
theorem lift {x : Except Defect α} {Q : α → Prop} (h : Outcome x Q E) :
    (liftM x : Compile α).Meets a (fun r b => Q r ∧ b = a) E := by
  cases x with
  | ok r => exact ⟨h, rfl⟩
  | error d => exact h

/-- A loop over a list, by an invariant over the elements that were seen. -/
theorem foldlM {γ : Type} {f : β → γ → Compile β} {l : List γ} {I : List γ → β → Arena → Prop}
    {r : β} (h0 : I [] r a)
    (hstep : ∀ seen, ∀ x ∈ l, ∀ r b, I seen r b → (f r x).Meets b (I (seen ++ [x])) E) :
    (l.foldlM f r).Meets a (I l) E := by
  have go : ∀ (rest seen : List γ), (∀ x ∈ rest, x ∈ l) → ∀ r b, I seen r b →
      (rest.foldlM f r).Meets b (I (seen ++ rest)) E := by
    intro rest
    induction rest with
    | nil =>
      intro seen _ r b h
      rw [List.append_nil]
      exact h
    | cons x rest ih =>
      intro seen hmem r b h
      rw [List.foldlM_cons]
      refine bind (hstep seen x (hmem x (by simp)) r b h) fun r' b' h' => ?_
      have := ih (seen ++ [x]) (fun y hy => hmem y (List.mem_cons_of_mem _ hy)) r' b' h'
      rwa [List.append_assoc] at this
  exact go l [] (fun _ h => h) r a h0

end Compile.Meets

/-! ## Filling slots -/

/-- Filling gives the slots at the indices a child if they have none. -/
theorem getElem?_fill (child : Nat) (slots : Slots) (indices : List Nat) (i : Nat) :
    (fill child slots indices)[i]? =
      slots[i]?.map fun s => if i ∈ indices then s.or (some child) else s := by
  rw [fill]
  induction indices generalizing slots with
  | nil => simp
  | cons j indices ih =>
    rw [List.foldl_cons, ih, Array.getElem?_modify]
    by_cases hj : j = i
    · subst hj
      cases slots[j]? with
      | none => simp
      | some s => cases s <;> simp
    · simp [hj, Ne.symm hj]

/-- Filling leaves the number of slots. -/
theorem size_fill (child : Nat) (slots : Slots) (indices : List Nat) :
    (fill child slots indices).size = slots.size := by
  rw [fill]
  induction indices generalizing slots with
  | nil => rfl
  | cons j indices ih => rw [List.foldl_cons, ih, Array.size_modify]

/-- The slots of a table after some of its explicit entries: a slot has the recorded position of the
target of the first entry that matches it. -/
structure Filled (t : SlotTable) (seen : List SlotPattern) (positions : List (String × Nat))
    (slots : Slots) : Prop where
  size_eq : slots.size = 2 ^ t.width
  explicit : ∀ p ∈ seen, ∃ child, positions.lookup p.target = some child
  slot : ∀ i < 2 ^ t.width,
    slots[i]? = some ((seen.find? (·.takes i)).bind fun p => positions.lookup p.target)

/-- The slots of a table after all of its entries: a slot has the recorded position of its target,
if it has a target. -/
structure Assigned (t : SlotTable) (positions : List (String × Nat)) (slots : Slots) : Prop where
  size_eq : slots.size = 2 ^ t.width
  explicit : ∀ p ∈ t.patterns, ∃ child, positions.lookup p.target = some child
  recorded : ∀ i < 2 ^ t.width, ∀ target, t.target? i = some target →
    ∃ child, positions.lookup target = some child
  slot : ∀ i < 2 ^ t.width,
    slots[i]? = some ((t.target? i).bind fun target => positions.lookup target)

section Table

variable {tables : List SlotTable} {optimize : Bool} {t : SlotTable} {avoided : Set String}

/-- Names that are not recorded. -/
def Fresh (avoided : Set String) (a : Arena) : Prop :=
  ∀ n ∈ avoided, a.positions.lookup n = none

/-- From an arena, a name is recorded at a position, and the names to avoid are not. -/
def Records (tables : List SlotTable) (optimize : Bool) (avoided : Set String) (name : String)
    (a : Arena) (p : Nat) (b : Arena) : Prop :=
  Arena.Grows tables optimize a b ∧ b.positions.lookup name = some p ∧ Fresh avoided b

/-- Before any entry, no slot is filled. -/
theorem filled_nil (t : SlotTable) (positions : List (String × Nat)) :
    Filled t [] positions (Array.replicate (2 ^ t.width) none) where
  size_eq := by simp
  explicit p hp := by simp at hp
  slot i hi := by simp [hi]

/-- Another entry takes the slots that it matches and that are still empty. -/
theorem Filled.fill (ht : t.Valid) {seen : List SlotPattern} {a b : Arena} {slots : Slots}
    (h : Filled t seen a.positions slots) (hgrows : Arena.Grows tables optimize a b)
    {p : SlotPattern} (hp : p ∈ t.patterns) {child : Nat}
    (hchild : b.positions.lookup p.target = some child) :
    Filled t (seen ++ [p]) b.positions
      (fill child slots (Pattern.slots p.mask.toNat p.value.toNat t.width)) where
  size_eq := by rw [size_fill, h.size_eq]
  explicit q hq := by
    rcases List.mem_append.1 hq with hq | hq
    · obtain ⟨c, hc⟩ := h.explicit q hq
      exact ⟨c, hgrows.lookup hc⟩
    · obtain rfl := List.mem_singleton.1 hq
      exact ⟨child, hchild⟩
  slot i hi := by
    have taken : i ∈ Pattern.slots p.mask.toNat p.value.toNat t.width ↔ p.takes i := by
      rw [ht.mem_slots hp]
      exact and_iff_right hi
    rw [getElem?_fill, h.slot i hi, Option.map_some, List.find?_append]
    cases hfind : seen.find? (·.takes i) with
    | some q =>
      -- an earlier entry keeps the slot
      obtain ⟨c, hc⟩ := h.explicit q (List.mem_of_find?_eq_some hfind)
      simp [hc, hgrows.lookup hc]
    | none =>
      by_cases hi : p.takes i
      · simp [taken, hi, hchild]
      · simp [taken, hi]

variable {compile : String → Compile Nat} {a : Arena} {E : Defect → Prop}

/-- The explicit entries of a table are compiled in order. -/
theorem fillExplicit_meets (ht : t.Valid) (hfresh : Fresh avoided a)
    (hcompile : ∀ target, t.IsLive target → ∀ b, Arena.Grows tables optimize a b → Fresh avoided b →
      (compile target).Meets b (Records tables optimize avoided target b) E) :
    (fillExplicit compile t.width (Array.replicate (2 ^ t.width) none) t.patterns).Meets a
      (fun slots b => Arena.Grows tables optimize a b ∧ Fresh avoided b ∧
        Filled t t.patterns b.positions slots) E := by
  refine Compile.Meets.foldlM (I := fun seen slots b => Arena.Grows tables optimize a b ∧
    Fresh avoided b ∧ Filled t seen b.positions slots) ⟨.refl, hfresh, filled_nil t _⟩ ?_
  rintro seen p hp slots b ⟨hgrows, hfresh, hfilled⟩
  refine (hcompile p.target (.inl ⟨p, hp, rfl⟩) b hgrows hfresh).bind ?_
  rintro child b' ⟨hgrows', hchild, hfresh'⟩
  exact ⟨hgrows.trans hgrows', hfresh', hfilled.fill ht hgrows' hp hchild⟩

section Filled

variable {slots : Slots} {positions : List (String × Nat)}

/-- Where the catch-all is not needed, the slots are assigned after the explicit entries. -/
theorem Filled.assigned (h : Filled t t.patterns positions slots)
    (hdone : t.otherwise? = none ∨ slots.toList.all Option.isSome) :
    Assigned t positions slots := by
  have target : ∀ i < 2 ^ t.width,
      t.target? i = (t.patterns.find? (·.takes i)).map (·.target) := by
    intro i hi
    rw [SlotTable.target?]
    cases hfind : t.patterns.find? (·.takes i) with
    | some p => rfl
    | none =>
      rcases hdone with hnone | hall
      · exact hnone
      · have hmem : none ∈ slots.toList := by
          refine List.mem_of_getElem? (i := i) ?_
          rw [Array.getElem?_toList, h.slot i hi, hfind]
          rfl
        exact absurd (List.all_eq_true.1 hall none hmem) Bool.false_ne_true
  refine ⟨h.size_eq, h.explicit, fun i hi name hname => ?_, fun i hi => ?_⟩
  · rw [target i hi] at hname
    obtain ⟨p, hp, rfl⟩ := Option.map_eq_some_iff.1 hname
    exact h.explicit p (List.mem_of_find?_eq_some hp)
  · rw [h.slot i hi, target i hi, Option.bind_map]
    rfl

/-- The catch-all is live if a slot is empty after the explicit entries. -/
theorem Filled.isLive_otherwise (h : Filled t t.patterns positions slots) {target : String}
    (hother : t.otherwise? = some target) (hempty : ¬ slots.toList.all Option.isSome) :
    t.IsLive target := by
  obtain ⟨s, hs, hnone⟩ := List.all_eq_false.1 (Bool.not_eq_true _ ▸ hempty)
  obtain rfl : s = none := Option.not_isSome_iff_eq_none.1 hnone
  obtain ⟨i, hi, hget⟩ := List.getElem_of_mem hs
  have hi' : i < 2 ^ t.width := h.size_eq ▸ hi
  have slot : slots[i]? = some none := by
    rw [← Array.getElem?_toList, List.getElem?_eq_getElem hi, hget]
  refine .inr ⟨hother, i, hi', fun p hp => ?_⟩
  cases hfind : t.patterns.find? (·.takes i) with
  | none => simpa using List.find?_eq_none.1 hfind p hp
  | some q =>
    obtain ⟨c, hc⟩ := h.explicit q (List.mem_of_find?_eq_some hfind)
    rw [h.slot i hi', hfind, Option.bind_some, hc] at slot
    cases slot

/-- The catch-all takes the slots that are left. -/
theorem Filled.fillRest {a b : Arena} (h : Filled t t.patterns a.positions slots)
    (hgrows : Arena.Grows tables optimize a b) {target : String} {child : Nat}
    (hother : t.otherwise? = some target) (hchild : b.positions.lookup target = some child) :
    Assigned t b.positions (slots.toList.map (·.or (some child))).toArray := by
  refine ⟨by simpa using h.size_eq, fun p hp => ?_, fun i hi name hname => ?_, fun i hi => ?_⟩
  · obtain ⟨c, hc⟩ := h.explicit p hp
    exact ⟨c, hgrows.lookup hc⟩
  · rw [SlotTable.target?] at hname
    cases hfind : t.patterns.find? (·.takes i) with
    | some p =>
      rw [hfind] at hname
      obtain ⟨c, hc⟩ := h.explicit p (List.mem_of_find?_eq_some hfind)
      exact ⟨c, Option.some.inj hname ▸ hgrows.lookup hc⟩
    | none =>
      rw [hfind, hother] at hname
      exact ⟨child, Option.some.inj hname ▸ hchild⟩
  · rw [List.getElem?_toArray, List.getElem?_map, Array.getElem?_toList, h.slot i hi,
      Option.map_some, SlotTable.target?]
    cases hfind : t.patterns.find? (·.takes i) with
    | some p =>
      obtain ⟨c, hc⟩ := h.explicit p (List.mem_of_find?_eq_some hfind)
      simp [hc, hgrows.lookup hc]
    | none => simp [hother, hchild]

/-- A slot without a child is one without a target. -/
theorem Assigned.target?_eq_none (h : Assigned t positions slots) {i : Nat}
    (hi : slots[i]? = some none) : i < 2 ^ t.width ∧ t.target? i = none := by
  have hlt : i < 2 ^ t.width := h.size_eq ▸ (Array.getElem?_eq_some_iff.1 hi).1
  refine ⟨hlt, ?_⟩
  rw [h.slot i hlt] at hi
  cases htarget : t.target? i with
  | none => rfl
  | some target =>
    obtain ⟨c, hc⟩ := h.recorded i hlt target htarget
    rw [htarget, Option.bind_some, hc] at hi
    cases hi

/-- The child of a slot is the recorded position of its target. -/
theorem Assigned.exists_target? (h : Assigned t positions slots) {i c : Nat}
    (hi : slots[i]? = some (some c)) :
    ∃ target, t.target? i = some target ∧ positions.lookup target = some c := by
  have hlt : i < 2 ^ t.width := h.size_eq ▸ (Array.getElem?_eq_some_iff.1 hi).1
  rw [h.slot i hlt] at hi
  exact Option.bind_eq_some_iff.1 (Option.some.inj hi)

end Filled

/-- The catch-all is compiled if a slot is left to it. -/
theorem fillOtherwise_meets (hfresh : Fresh avoided a) {slots : Slots}
    (hfilled : Filled t t.patterns a.positions slots)
    (hcompile : ∀ target, t.IsLive target → ∀ b, Arena.Grows tables optimize a b → Fresh avoided b →
      (compile target).Meets b (Records tables optimize avoided target b) E) :
    (fillOtherwise compile slots t.otherwise?).Meets a
      (fun slots b => Arena.Grows tables optimize a b ∧ Fresh avoided b ∧
        Assigned t b.positions slots) E := by
  unfold fillOtherwise
  split
  · next hother => exact ⟨.refl, hfresh, hfilled.assigned (.inl hother)⟩
  · next target hother =>
    split
    · next hall => exact ⟨.refl, hfresh, hfilled.assigned (.inr hall)⟩
    · next hempty =>
      refine (hcompile target (hfilled.isLive_otherwise hother hempty) a .refl hfresh).bind ?_
      rintro child b ⟨hgrows, hchild, hfresh⟩
      exact ⟨hgrows, hfresh, hfilled.fillRest hgrows hother hchild⟩

/-- The children of a table are read off its slots, or the first slot without a child is found. -/
theorem children_outcome (name : String) (slots : Slots) :
    Outcome (children name slots)
      (fun cs : Array Nat => cs.size = slots.size ∧ ∀ i : Nat, cs[i]? = slots[i]?.join)
      (fun d => ∃ i : Nat, slots[i]? = some none ∧ (∀ j < i, ∃ c, slots[j]? = some (some c)) ∧
        d = .unmappedSlot name i) := by
  rw [children]
  split
  · next index hindex =>
    rw [List.findIdx?_eq_some_iff_getElem] at hindex
    obtain ⟨hlt, hnone, hbefore⟩ := hindex
    refine ⟨index, ?_, fun j hj => ?_, rfl⟩
    · rw [← Array.getElem?_toList, List.getElem?_eq_getElem hlt, Option.isNone_iff_eq_none.1 hnone]
    · obtain ⟨c, hc⟩ := Option.ne_none_iff_exists'.1 fun h =>
        hbefore j hj (Option.isNone_iff_eq_none.2 h)
      exact ⟨c, by rw [← Array.getElem?_toList, List.getElem?_eq_getElem (by omega), hc]⟩
  · next hindex =>
    have every : slots.toList = (slots.toList.filterMap id).map some := by
      have all : ∀ s ∈ slots.toList, s.isSome := fun s hs => by
        simpa using List.findIdx?_eq_none_iff.1 hindex s hs
      generalize slots.toList = l at all
      induction l with
      | nil => rfl
      | cons s l ih =>
        obtain ⟨c, rfl⟩ := Option.isSome_iff_exists.1 (all s (by simp))
        simpa using ih fun s hs => all s (List.mem_cons_of_mem _ hs)
    refine ⟨?_, fun i => ?_⟩
    · have length := congrArg List.length every
      rw [List.length_map, Array.length_toList] at length
      exact length.symm
    · have get := congrArg (·[i]?) every
      simp only [List.getElem?_map, Array.getElem?_toList] at get
      rw [get, List.getElem?_toArray]
      cases (slots.toList.filterMap id)[i]? <;> rfl

/-- The children of a table whose slots are assigned resolve its targets; the first slot without a
child is the first one without a target. -/
theorem children_assigned {slots : Slots} {positions : List (String × Nat)}
    (h : Assigned t positions slots)
    (hgap : ∀ i < 2 ^ t.width, t.target? i = none → (∀ j < i, (t.target? j).isSome) →
      E (.unmappedSlot t.name i)) :
    Outcome (children t.name slots) (fun cs => Resolves t positions cs) E := by
  refine (children_outcome t.name slots).mono ?_ ?_
  · rintro cs ⟨hsize, hget⟩
    refine ⟨hsize.trans h.size_eq, h.explicit, fun i hi => ?_⟩
    have hlt : i < cs.size := by rwa [hsize, h.size_eq]
    have hc := hget i
    rw [Array.getElem?_eq_getElem hlt] at hc
    obtain ⟨target, htarget, hlookup⟩ := h.exists_target? (Option.join_eq_some_iff.1 hc.symm)
    exact ⟨target, cs[i], htarget, hlookup, Array.getElem?_eq_getElem hlt⟩
  · rintro d ⟨i, hnone, hbefore, rfl⟩
    obtain ⟨hlt, htarget⟩ := h.target?_eq_none hnone
    refine hgap i hlt htarget fun j hj => ?_
    obtain ⟨c, hc⟩ := hbefore j hj
    obtain ⟨target, htarget, -⟩ := h.exists_target? hc
    rw [htarget]
    rfl

/-- The arena after a table was lowered, and the position that it answers. -/
def Lowers (l : Lowered) (a : Arena) (p : Nat) (b : Arena) : Prop :=
  match l with
  | .forward child => p = child ∧ b = a
  | .cell c => p = a.cells.size ∧ b = ⟨a.cells.push c, a.positions⟩

/-- A table is compiled behind its live targets, or its first gap is found. -/
theorem compileTable_meets (ht : t.Valid) (hfresh : Fresh avoided a)
    (hcompile : ∀ target, t.IsLive target → ∀ b, Arena.Grows tables optimize a b → Fresh avoided b →
      (compile target).Meets b (Records tables optimize avoided target b) E)
    (hgap : ∀ i < 2 ^ t.width, t.target? i = none → (∀ j < i, (t.target? j).isSome) →
      E (.unmappedSlot t.name i)) :
    (compileTable optimize compile t).Meets a
      (fun p c => ∃ b children, Arena.Grows tables optimize a b ∧ Fresh avoided b ∧
        Resolves t b.positions children ∧
        Lowers (Lowered.ofChildren t.sampledMask children optimize) b p c) E := by
  refine (fillExplicit_meets ht hfresh hcompile).bind ?_
  rintro slots b ⟨hgrows, hfresh, hfilled⟩
  refine (fillOtherwise_meets hfresh hfilled fun target hlive b' hgrows' hfresh' =>
    hcompile target hlive b' (hgrows.trans hgrows') hfresh').bind ?_
  rintro slots' b' ⟨hgrows', hfresh', hassigned⟩
  refine (Compile.Meets.lift (children_assigned hassigned hgap)).bind ?_
  rintro cs _ ⟨hres, same⟩
  rw [same]
  have result : ∀ p c, Lowers (Lowered.ofChildren t.sampledMask cs optimize) b' p c →
      ∃ b children, Arena.Grows tables optimize a b ∧ Fresh avoided b ∧
        Resolves t b.positions children ∧
        Lowers (Lowered.ofChildren t.sampledMask children optimize) b p c :=
    fun p c h => ⟨b', cs, hgrows.trans hgrows', hfresh', hres, h⟩
  cases hlower : Lowered.ofChildren t.sampledMask cs optimize with
  | forward child =>
    rw [hlower] at result
    exact result child b' ⟨rfl, rfl⟩
  | cell c =>
    rw [hlower] at result
    exact result b'.cells.size ⟨b'.cells.push c, b'.positions⟩ ⟨rfl, rfl⟩

end Table

/-! ## Names -/

/-- A defect that the compilation of names reports is present, at a name that was reached: the name
is on a cycle, or it is that of a table whose first slot without a target is the given one. -/
def Blames (tables : List SlotTable) (Reached : String → Prop) : Defect → Prop
  | .cycle n => Reached n ∧ Relation.TransGen (Live tables) n n
  | .unmappedSlot n i => Reached n ∧ ∃ t, Names tables n t ∧ i < 2 ^ t.width ∧
    t.target? i = none ∧ ∀ j < i, (t.target? j).isSome
  | _ => False

/-- A path of distinct tables that lead to a name. -/
structure Path (tables : List SlotTable) (path : List String) (name : String) : Prop where
  nodup : path.Nodup
  mem : ∀ n ∈ path, n ∈ tables.map (·.name)
  live : ∀ n ∈ path, Relation.TransGen (Live tables) n name

namespace Path

variable {tables : List SlotTable} {path : List String} {name target : String} {t : SlotTable}

/-- The empty path leads to every name. -/
theorem nil (tables : List SlotTable) (name : String) : Path tables [] name where
  nodup := .nil
  mem n hn := by simp at hn
  live n hn := by simp at hn

/-- A path goes on along a live target to a table that is not on it. -/
theorem cons (h : Path tables path name) (hpath : name ∉ path) (hname : Names tables name t)
    (hlive : t.IsLive target) : Path tables (name :: path) target where
  nodup := List.nodup_cons.2 ⟨hpath, h.nodup⟩
  mem n hn := by
    rcases List.mem_cons.1 hn with rfl | hn
    · exact List.mem_map.2 ⟨t, hname.mem, hname.name_eq⟩
    · exact h.mem n hn
  live n hn := by
    rcases List.mem_cons.1 hn with rfl | hn
    · exact .single ⟨t, hname, hlive⟩
    · exact (h.live n hn).tail ⟨t, hname, hlive⟩

/-- A table that is not on the path is one more than those that are. -/
theorem length_lt (h : Path tables path name) (hpath : name ∉ path) (hname : Names tables name t) :
    path.length < tables.length := by
  have sub : name :: path ⊆ tables.map (·.name) := by
    intro n hn
    rcases List.mem_cons.1 hn with rfl | hn
    · exact List.mem_map.2 ⟨t, hname.mem, hname.name_eq⟩
    · exact h.mem n hn
  have le := (List.nodup_cons.2 ⟨hpath, h.nodup⟩).length_le_of_subset sub
  rwa [List.length_map] at le

end Path

variable {tables : List SlotTable} {optimize : Bool} {path : List String} {avoided : Set String}
  {a : Arena} {E : Defect → Prop}

/-- Recording a name leaves the names to avoid unrecorded, if it is not one of them. -/
theorem Fresh.record {name : String} (h : Fresh avoided a) (hname : name ∉ avoided)
    (cells : Array Cell) (p : Nat) : Fresh avoided ⟨cells, (name, p) :: a.positions⟩ := by
  intro n hn
  have hne : n ≠ name := by
    rintro rfl
    exact hname hn
  rw [List.lookup_cons, beq_eq_false_iff_ne.2 hne]
  exact h n hn

/-- A name is recorded, unless it was before. -/
theorem compileName_meets {name : String} {table : SlotTable → Compile Nat}
    (hdefined : isDefined tables name) (hfresh : Fresh avoided a)
    (hcycle : name ∈ path → E (.cycle name)) (havoided : name ∉ path → name ∉ avoided)
    (htable : ∀ t, Names tables name t → name ∉ path → a.positions.lookup name = none →
      (table t).Meets a (fun p c => ∃ b children, Arena.Grows tables optimize a b ∧
        Fresh (insert name avoided) b ∧ Resolves t b.positions children ∧
        Lowers (Lowered.ofChildren t.sampledMask children optimize) b p c) E) :
    (compileName tables path name table).Meets a (Records tables optimize avoided name a) E := by
  have read : (get : Compile Arena).Meets a (fun r b => r = a ∧ b = a) E := ⟨rfl, rfl⟩
  refine read.bind ?_
  rintro r b ⟨hr, hb⟩
  rw [hr, hb]
  cases hlookup : a.positions.lookup name with
  | some p => exact ⟨.refl, hlookup, hfresh⟩
  | none =>
    by_cases hpath : name ∈ path
    · simp only [hpath, if_true]
      exact hcycle hpath
    · simp only [hpath, if_false]
      have hname := havoided hpath
      cases hcat : Category.ofName? name with
      | some c =>
        exact ⟨.single (.leaf hlookup hcat), List.lookup_cons_self, hfresh.record hname _ _⟩
      | none =>
        cases hfind : tables.find? (·.name = name) with
        | some t =>
          refine (htable t ⟨hcat, hfind⟩ hpath hlookup).bind ?_
          rintro p c ⟨b, children, hgrows, hfresh', hres, hlower⟩
          have unrecorded : b.positions.lookup name = none := hfresh' name (Set.mem_insert _ _)
          have hfresh'' : Fresh avoided b := fun n hn => hfresh' n (Set.mem_insert_of_mem _ hn)
          cases hl : Lowered.ofChildren t.sampledMask children optimize with
          | forward child =>
            rw [hl] at hlower
            obtain ⟨rfl, rfl⟩ := hlower
            exact ⟨hgrows.tail (.forward unrecorded ⟨hcat, hfind⟩ hres hl), List.lookup_cons_self,
              hfresh''.record hname _ _⟩
          | cell cell =>
            rw [hl] at hlower
            obtain ⟨rfl, rfl⟩ := hlower
            exact ⟨hgrows.tail (.cell unrecorded ⟨hcat, hfind⟩ hres hl), List.lookup_cons_self,
              hfresh''.record hname _ _⟩
        | none =>
          have unknown : isDefined tables name = false := by
            rw [isDefined, hcat, Option.isSome_none, Bool.false_or, List.any_eq_false]
            intro t ht
            simpa using List.find?_eq_none.1 hfind t ht
          exact absurd hdefined (by simp [unknown])

/-- What is promised of tables that compilation starts from. -/
structure Valid (tables : List SlotTable) : Prop where
  table : ∀ t ∈ tables, t.Valid
  target : ∀ t ∈ tables, ∀ target, t.IsLive target → isDefined tables target

/-- What the compilation of a name does not record: names on the path, and names that are not
reached. -/
def Avoided (path : List String) (Reached : String → Prop) : Set String :=
  { n | n ∈ path ∨ ¬ Reached n }

/-- A longer path avoids one more name. -/
theorem avoided_cons (name : String) (path : List String) (Reached : String → Prop) :
    Avoided (name :: path) Reached = insert name (Avoided path Reached) := by
  ext n
  rw [Set.mem_insert_iff]
  exact (or_congr_left List.mem_cons).trans or_assoc

/-- A reached name that is not on the path is not avoided. -/
theorem notMem_avoided {name : String} {path : List String} {Reached : String → Prop}
    (hreached : Reached name) (hpath : name ∉ path) : name ∉ Avoided path Reached :=
  not_or.2 ⟨hpath, not_not.2 hreached⟩

/-- The compilation of a name records it, and nothing that is not reached, or reports a defect that
is present.

**Proof sketch.** By induction on the number of tables that are not on the path. A name on the path
leads to itself. A table that is not on the path is one of those that the number counts
(`Path.length_lt`), so there is depth left for its targets; each of them is compiled with the table
on its path. -/
theorem compile_meets {Reached : String → Prop} (hvalid : Valid tables)
    (hclosed : ∀ n m, Reached n → Live tables n m → Reached m) {depth : Nat} {name : String}
    (hpath : Path tables path name) (hdepth : path.length + depth = tables.length)
    (hdefined : isDefined tables name) (hreached : Reached name)
    (hfresh : Fresh (Avoided path Reached) a) :
    (compile tables optimize depth path name).Meets a
      (Records tables optimize (Avoided path Reached) name a) (Blames tables Reached) := by
  have hcycle : name ∈ path → Blames tables Reached (.cycle name) := fun hmem =>
    ⟨hreached, hpath.live name hmem⟩
  induction depth generalizing path name a with
  | zero =>
    refine compileName_meets hdefined hfresh hcycle (notMem_avoided hreached)
      fun t hname hnot _ => ?_
    exact absurd (hpath.length_lt hnot hname) (by omega)
  | succ depth ih =>
    refine compileName_meets hdefined hfresh hcycle (notMem_avoided hreached)
      fun t hname hnot hlookup => ?_
    rw [← avoided_cons]
    have hfresh' : Fresh (Avoided (name :: path) Reached) a := by
      rw [avoided_cons]
      intro n hn
      rcases Set.mem_insert_iff.1 hn with rfl | hn
      · exact hlookup
      · exact hfresh n hn
    refine compileTable_meets (hvalid.table t hname.mem) hfresh' ?_ ?_
    · intro target hlive b _ hfresh
      have hpath' := hpath.cons hnot hname hlive
      have hreached' := hclosed name target hreached ⟨t, hname, hlive⟩
      exact ih hpath' (by rw [List.length_cons]; omega) (hvalid.target t hname.mem target hlive)
        hreached' hfresh fun hmem => ⟨hreached', hpath'.live target hmem⟩
    · intro i hi hnone hbefore
      rw [hname.name_eq]
      exact ⟨hreached, t, hname, hi, hnone, hbefore⟩

/-- A root is compiled if it is defined. -/
theorem compileRoot_meets {Reached : String → Prop} (hvalid : Valid tables)
    (hclosed : ∀ n m, Reached n → Live tables n m → Reached m) {name : String}
    (hreached : Reached name) (hfresh : Fresh (Avoided [] Reached) a) :
    (compileRoot tables optimize name).Meets a
      (fun p b => isDefined tables name ∧
        Records tables optimize (Avoided [] Reached) name a p b)
      (fun d => Blames tables Reached d ∨
        (isDefined tables name = false ∧ d = .unknownRoot name)) := by
  rw [compileRoot]
  cases hdefined : isDefined tables name with
  | false => exact Or.inr ⟨rfl, rfl⟩
  | true =>
    have meets : (compile tables optimize tables.length [] name).Meets a
        (Records tables optimize (Avoided [] Reached) name a) (Blames tables Reached) :=
      compile_meets hvalid hclosed (.nil tables name) (Nat.zero_add _) hdefined hreached hfresh
    exact Outcome.mono meets (fun _ h => ⟨rfl, h⟩) fun _ => .inl

end Builder

end AArch64
