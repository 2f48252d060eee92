import AArch64.Stream
import Mathlib.Data.List.Induction
import Mathlib.Data.List.TakeDrop
import Mathlib.Tactic.Common

/-!
# Switches in effect

A switch is in effect from its offset on, until a later one takes its place. In a map the switches
stand by increasing offset, so that the one in effect at an offset is the last one that is not
behind it. A map that is made from a list answers what the list says, with the switch that was
given last where several have one offset.

## Main definitions

* `AArch64.SwitchMap.Sorted` — the offsets increase.
* `AArch64.SwitchMap.last` — the instruction set after all switches of a map.
* `AArch64.SwitchMap.inEffect` — the one in effect at an offset.
* `AArch64.SwitchMap.given` — the one in effect at an offset, for switches in any order.

## Main results

* `AArch64.SwitchMap.lookup_insert` — what a map says after a switch was put in.
* `AArch64.SwitchMap.inEffect_eq` — what is in effect, by what a map says.
* `AArch64.SwitchMap.Sorted.inEffect_eq_given` — what is in effect, by the greatest offset.
* `AArch64.SwitchMap.inEffect_insertIfNew` — a map with a default entry puts in effect what the
  given switches do.
-/

set_option autoImplicit false

namespace AArch64

namespace SwitchMap

/-- The offsets of a map increase. -/
def Sorted (m : SwitchMap) : Prop :=
  m.Pairwise fun s t => s.1 < t.1

/-- The instruction set after all switches of a map, if it was `isa` before. -/
def last (m : SwitchMap) (isa : Isa) : Isa :=
  (m.getLast?.map (·.2)).getD isa

/-- The instruction set in effect at an offset, if it is `isa` before all switches. -/
def inEffect (m : SwitchMap) (isa : Isa) (offset : Nat) : Isa :=
  last (m.filter (·.1 ≤ offset)) isa

/-- The instruction set that switches in any order put in effect at an offset: that of the switch
given last among those at the greatest offset that is not behind it, and `isa` if there is none. -/
def given (switches : List (Nat × Isa)) (isa : Isa) (offset : Nat) : Isa :=
  match ((switches.map (·.1)).filter (· ≤ offset)).max? with
  | none => isa
  | some greatest => last (switches.filter (·.1 = greatest)) isa

variable {m : SwitchMap} {isa : Isa} {offset : Nat}

/-! ## Maps in order -/

/-- A switch of the map is the one that was put in, or was there. -/
theorem mem_insert {s : Nat × Isa} (h : s ∈ insert offset isa m) : s = (offset, isa) ∨ s ∈ m := by
  induction m with
  | nil => simpa [insert] using h
  | cons t rest ih =>
    rw [insert] at h
    split at h
    · simpa using h
    · split at h
      · rcases List.mem_cons.1 h with h | h
        · exact .inl h
        · exact .inr (.tail _ h)
      · rcases List.mem_cons.1 h with h | h
        · exact .inr (h ▸ .head _)
        · exact (ih h).imp_right (.tail _)

/-- A switch is put in its place. -/
theorem Sorted.insert (h : m.Sorted) (offset : Nat) (isa : Isa) :
    (insert offset isa m).Sorted := by
  induction m with
  | nil => exact List.pairwise_singleton _ _
  | cons s rest ih =>
    obtain ⟨before, hrest⟩ := List.pairwise_cons.1 h
    rw [SwitchMap.insert]
    split
    · next lt =>
      refine List.pairwise_cons.2 ⟨fun t ht => ?_, h⟩
      rcases List.mem_cons.1 ht with rfl | ht
      · exact lt
      · exact Nat.lt_trans lt (before t ht)
    · split
      · next ge eq => exact List.pairwise_cons.2 ⟨fun t ht => eq ▸ before t ht, hrest⟩
      · next ge ne =>
        refine List.pairwise_cons.2 ⟨fun t ht => ?_, ih hrest⟩
        rcases mem_insert ht with rfl | ht
        · show s.1 < offset
          omega
        · exact before t ht

/-- The map of a list is sorted. -/
theorem sorted_ofList (switches : List (Nat × Isa)) : (ofList switches).Sorted := by
  have all : ∀ m : SwitchMap, m.Sorted →
      (switches.foldl (fun m s => SwitchMap.insert s.1 s.2 m) m).Sorted := by
    induction switches with
    | nil => exact fun m hm => hm
    | cons s rest ih => exact fun m hm => ih _ (hm.insert s.1 s.2)
  exact all [] List.Pairwise.nil

/-- A map stays sorted when a default entry is put in. -/
theorem Sorted.insertIfNew (h : m.Sorted) (offset : Nat) (isa : Isa) :
    (insertIfNew offset isa m).Sorted := by
  rw [SwitchMap.insertIfNew]
  split
  · exact h
  · exact h.insert offset isa

/-! ## What a map says -/

/-- The entries at other offsets do not matter. -/
theorem lookup_cons_of_ne {other : Nat} (h : other ≠ offset) (m : SwitchMap) :
    List.lookup other ((offset, isa) :: m) = m.lookup other := by
  rw [List.lookup_cons, beq_false_of_ne h]

/-- A switch that is put in is found at its offset, and the others are found as before. -/
theorem lookup_insert (offset other : Nat) (isa : Isa) (m : SwitchMap) :
    (insert offset isa m).lookup other = if other = offset then some isa else m.lookup other := by
  have front : ∀ m : SwitchMap, List.lookup other ((offset, isa) :: m) =
      if other = offset then some isa else m.lookup other := by
    intro m
    split
    · next eq => rw [eq, List.lookup_cons_self]
    · next ne => rw [lookup_cons_of_ne ne]
  induction m with
  | nil => exact front []
  | cons s rest ih =>
    obtain ⟨place, was⟩ := s
    rw [insert]
    split
    · exact front _
    · split
      · next eq =>
        obtain rfl : offset = place := eq
        rw [front]
        split
        · rfl
        · next ne => rw [lookup_cons_of_ne ne]
      · next ne =>
        by_cases h : other = place
        · subst h
          rw [List.lookup_cons_self, List.lookup_cons_self, if_neg (Ne.symm ne)]
        · rw [lookup_cons_of_ne h, lookup_cons_of_ne h, ih]

/-- What a map says is one of its switches. -/
theorem mem_of_lookup (h : m.lookup offset = some isa) : (offset, isa) ∈ m := by
  induction m with
  | nil => cases h
  | cons t rest ih =>
    obtain ⟨place, was⟩ := t
    by_cases eq : offset = place
    · subst eq
      rw [List.lookup_cons_self] at h
      exact Option.some.inj h ▸ .head _
    · rw [lookup_cons_of_ne eq] at h
      exact .tail _ (ih h)

/-- Every switch of a map is found. -/
theorem Sorted.lookup_of_mem (hm : m.Sorted) {s : Nat × Isa} (hs : s ∈ m) :
    m.lookup s.1 = some s.2 := by
  induction m with
  | nil => cases hs
  | cons t rest ih =>
    obtain ⟨before, hrest⟩ := List.pairwise_cons.1 hm
    rcases List.mem_cons.1 hs with rfl | hs
    · exact List.lookup_cons_self
    · have behind := before s hs
      exact (lookup_cons_of_ne (by omega) rest).trans (ih hrest hs)

/-- What is in effect is what the map says at the greatest offset that is not behind. -/
theorem inEffect_eq (hm : m.Sorted) {was : Isa} {greatest : Nat}
    (hfound : m.lookup greatest = some isa) (hle : greatest ≤ offset)
    (hnone : ∀ s ∈ m, greatest < s.1 → offset < s.1) : m.inEffect was offset = isa := by
  have mem := mem_of_lookup hfound
  obtain ⟨before, after, rfl⟩ := List.append_of_mem mem
  obtain ⟨-, hafter, -⟩ := List.pairwise_append.1 hm
  have behind : after.filter (·.1 ≤ offset) = [] := by
    rw [List.filter_eq_nil_iff]
    intro s hs
    have := hnone s (List.mem_append_right _ (.tail _ hs)) ((List.pairwise_cons.1 hafter).1 s hs)
    simpa using this
  rw [inEffect, last, List.filter_append, List.filter_cons, if_pos (by simpa using hle), behind]
  simp

/-- What is in effect is what the switches of the map put in effect as a list. -/
theorem Sorted.inEffect_eq_given (hm : m.Sorted) (isa : Isa) (offset : Nat) :
    m.inEffect isa offset = given m isa offset := by
  rw [given]
  split
  · next hmax =>
    have behind : m.filter (·.1 ≤ offset) = [] := by
      rw [List.filter_eq_nil_iff]
      intro s hs
      simpa using List.filter_eq_nil_iff.1 (List.max?_eq_none_iff.1 hmax) s.1
        (List.mem_map_of_mem hs)
    rw [inEffect, behind]
    rfl
  · next greatest hmax =>
    obtain ⟨hmem, hgreatest⟩ := List.max?_eq_some_iff.1 hmax
    obtain ⟨hmem, hle⟩ := List.mem_filter.1 hmem
    obtain ⟨s, hs, rfl⟩ := List.mem_map.1 hmem
    have found := hm.lookup_of_mem hs
    rw [inEffect_eq hm found (of_decide_eq_true hle), last]
    · cases hlast : (m.filter (·.1 = s.1)).getLast? with
      | none =>
        have member : s ∈ m.filter (·.1 = s.1) := List.mem_filter.2 ⟨hs, decide_eq_true rfl⟩
        rw [List.getLast?_eq_none_iff.1 hlast] at member
        cases member
      | some t =>
        obtain ⟨ht, place⟩ := List.mem_filter.1 (List.mem_of_getLast? hlast)
        have same := hm.lookup_of_mem ht
        rw [of_decide_eq_true place, found] at same
        exact Option.some.inj same
    · intro q hq hlt
      by_contra hnot
      have := hgreatest q.1 (List.mem_filter.2 ⟨List.mem_map_of_mem hq,
        decide_eq_true (Nat.not_lt.1 hnot)⟩)
      omega

/-! ## Maps that are made from lists -/

/-- The switches of the map of a list are from the list. -/
theorem mem_of_mem_ofList {switches : List (Nat × Isa)} {s : Nat × Isa}
    (h : s ∈ ofList switches) : s ∈ switches := by
  induction switches using List.reverseRecOn with
  | nil => cases h
  | append_singleton rest t ih =>
    rw [ofList, List.foldl_append] at h
    rcases mem_insert h with rfl | h
    · exact List.mem_append_right _ (.head _)
    · exact List.mem_append_left _ (ih h)

/-- A map says what was given last for an offset. -/
theorem lookup_ofList (switches : List (Nat × Isa)) (offset : Nat) :
    (ofList switches).lookup offset =
      ((switches.filter (·.1 = offset)).getLast?).map (·.2) := by
  induction switches using List.reverseRecOn with
  | nil => rfl
  | append_singleton rest s ih =>
    rw [ofList, List.foldl_append]
    show (insert s.1 s.2 (ofList rest)).lookup offset = _
    rw [lookup_insert, List.filter_append, List.getLast?_append]
    by_cases eq : offset = s.1
    · simp [eq]
    · simp [eq, Ne.symm eq, ih]

/-- A switch of the map is the default entry, or was there. -/
theorem mem_of_mem_insertIfNew {s : Nat × Isa} (h : s ∈ insertIfNew offset isa m) :
    s = (offset, isa) ∨ s ∈ m := by
  rw [insertIfNew] at h
  split at h
  · exact .inr h
  · exact mem_insert h

/-- What is found in a map is found with a default entry as well. -/
theorem lookup_insertIfNew_of_eq_some {other : Nat} {found : Isa}
    (h : m.lookup other = some found) : (insertIfNew offset isa m).lookup other = some found := by
  rw [insertIfNew]
  split
  · exact h
  · next new =>
    have ne : other ≠ offset := by
      rintro rfl
      exact new (List.any_eq_true.2 ⟨_, mem_of_lookup h, decide_eq_true rfl⟩)
    rw [lookup_insert, if_neg ne, h]

/-- A default entry is found if the map says nothing there. -/
theorem lookup_insertIfNew_self (h : ∀ s ∈ m, s.1 ≠ offset) :
    (insertIfNew offset isa m).lookup offset = some isa := by
  have new : ¬ m.any (·.1 = offset) = true := by
    rw [List.any_eq_true]
    rintro ⟨s, hs, eq⟩
    exact h s hs (of_decide_eq_true eq)
  rw [insertIfNew, if_neg new, lookup_insert, if_pos rfl]

/-- **What given switches put in effect.** A map of switches that were given in any order, with a
default entry at offset 0, puts in effect at every offset what was given last for the greatest
offset that is not behind it, and the default if nothing was given for any such offset. -/
theorem inEffect_insertIfNew (switches : List (Nat × Isa)) (isa was : Isa) (offset : Nat) :
    ((ofList switches).insertIfNew 0 isa).inEffect was offset = given switches isa offset := by
  have sorted := (sorted_ofList switches).insertIfNew 0 isa
  rw [given]
  split
  · next hmax =>
    have behind : ∀ s ∈ switches, offset < s.1 := by
      intro s hs
      have := List.filter_eq_nil_iff.1 (List.max?_eq_none_iff.1 hmax) s.1 (List.mem_map_of_mem hs)
      simpa using this
    have new : ∀ s ∈ ofList switches, s.1 ≠ 0 := by
      intro s hs
      have := behind s (mem_of_mem_ofList hs)
      omega
    refine inEffect_eq sorted (lookup_insertIfNew_self new) (Nat.zero_le _) fun s hs hpos => ?_
    rcases mem_of_mem_insertIfNew hs with rfl | hs
    · exact absurd hpos (Nat.lt_irrefl 0)
    · exact behind s (mem_of_mem_ofList hs)
  · next greatest hmax =>
    obtain ⟨hmem, hgreatest⟩ := List.max?_eq_some_iff.1 hmax
    obtain ⟨hmem, hle⟩ := List.mem_filter.1 hmem
    obtain ⟨s, hs, rfl⟩ := List.mem_map.1 hmem
    have member : s ∈ switches.filter (·.1 = s.1) := List.mem_filter.2 ⟨hs, decide_eq_true rfl⟩
    cases hlast : (switches.filter (·.1 = s.1)).getLast? with
    | none =>
      rw [List.getLast?_eq_none_iff.1 hlast] at member
      cases member
    | some t =>
      have found : (ofList switches).lookup s.1 = some t.2 := by rw [lookup_ofList, hlast]; rfl
      rw [last, hlast]
      refine inEffect_eq sorted (lookup_insertIfNew_of_eq_some found) (of_decide_eq_true hle)
        fun q hq hlt => ?_
      rcases mem_of_mem_insertIfNew hq with rfl | hq
      · exact absurd hlt (Nat.not_lt_zero _)
      · by_contra hnot
        have := hgreatest q.1 (List.mem_filter.2 ⟨List.mem_map_of_mem (mem_of_mem_ofList hq),
          decide_eq_true (Nat.not_lt.1 hnot)⟩)
        omega

end SwitchMap

end AArch64
