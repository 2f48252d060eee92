import AArch64.Proofs.Arena

/-!
# Interpreting tables as they are given

What the tables mean is read off the tables themselves: bits of the word against the symbols of
patterns, entry by entry. The tables in index order, which compilation works on, mean the same, as
long as each table is well formed and has a name of its own.

## Main definitions

* `AArch64.Tables.Leads` — the category that a name leads a word to.
* `AArch64.Tables.Live` — the targets that matter for the tables being accepted.
* `AArch64.Tables.Readable` — every table is well formed and has a name of its own.

## Main results

* `AArch64.Tables.Readable.leads` — tables in index order lead nowhere else.
* `AArch64.Tables.Readable.live_iff` — tables in index order have the same live targets.
-/

set_option autoImplicit false

namespace AArch64

/-- A slot that no entry has: some word has the slot, and no target. -/
def Table.Unmapped (t : Table) (i : Nat) : Prop :=
  ∃ w, (SlotTable.ofTable t).indexOf w = i ∧ t.target? w = none

namespace Tables

/-- A name is that of a category or of a table. -/
def Defined (tables : List Table) (name : String) : Prop :=
  (∃ c : Category, c.name = name) ∨ ∃ t ∈ tables, t.name = name

/-- The category that a name leads a word to. The name of a category leads there; a table leads on
from the target that it has for the word. -/
inductive Leads (tables : List Table) (w : Word) : String → Category → Prop
  /-- The name of a category. -/
  | category (c : Category) : Leads tables w c.name c
  /-- The name of a table, by the target of the word. -/
  | table {t : Table} {target : String} {c : Category} (ht : t ∈ tables)
      (htarget : t.target? w = some target) (h : Leads tables w target c) : Leads tables w t.name c

/-- A table has a live target: that of an explicit entry, or that of the catch-all if no explicit
entry matches some word. -/
def Live (tables : List Table) (name target : String) : Prop :=
  ∃ t ∈ tables, t.name = name ∧ ((∃ e ∈ t.explicit, e.2 = target) ∨
    (t.otherwise? = some target ∧ ∃ w, ∀ e ∈ t.explicit, Table.covers t.bits e.1 w = false))

/-- Every table is well formed, and its name is neither that of another table nor that of a
category. -/
structure Readable (tables : List Table) : Prop where
  wellFormed : ∀ t ∈ tables, t.WellFormed
  names_nodup : (tables.map (·.name)).Nodup
  name_ne : ∀ t ∈ tables, ∀ c : Category, c.name ≠ t.name

/-! ## Names of categories -/

/-- A name is looked up to the category that has it. -/
theorem ofName?_eq_some_iff {name : String} {c : Category} :
    Category.ofName? name = some c ↔ c.name = name := by
  constructor
  · intro h
    simpa using List.find?_some h
  · rintro rfl
    exact Category.ofName?_name c

/-- A name is not found exactly if no category has it. -/
theorem ofName?_eq_none_iff {name : String} :
    Category.ofName? name = none ↔ ∀ c : Category, c.name ≠ name := by
  constructor
  · rintro h c rfl
    rw [Category.ofName?_name] at h
    cases h
  · intro h
    cases hc : Category.ofName? name with
    | none => rfl
    | some c => exact absurd (ofName?_eq_some_iff.1 hc) (h c)

/-- The builder knows a name exactly if it is defined. -/
theorem isDefined_iff {tables : List Table} {name : String} :
    Builder.isDefined (tables.map .ofTable) name ↔ Defined tables name := by
  rw [Builder.isDefined, Bool.or_eq_true, Option.isSome_iff_exists]
  refine or_congr (exists_congr fun c => ofName?_eq_some_iff) ?_
  rw [List.any_map, List.any_eq_true]
  exact exists_congr fun t => and_congr_right fun _ => decide_eq_true_iff

/-! ## Tables in index order -/

namespace Readable

variable {tables : List Table} (h : Readable tables)
include h

/-- Tables of one name are one table. -/
theorem eq_of_name_eq {t u : Table} (ht : t ∈ tables) (hu : u ∈ tables) (hname : t.name = u.name) :
    t = u :=
  List.inj_on_of_nodup_map h.names_nodup ht hu hname

/-- Tables in index order are valid. -/
theorem valid {t : SlotTable} (ht : t ∈ tables.map .ofTable) : t.Valid := by
  obtain ⟨u, hu, rfl⟩ := List.mem_map.1 ht
  exact SlotTable.valid_ofTable (h.wellFormed u hu)

/-- A table in index order has a name exactly if the table that it is from does. -/
theorem names_iff {name : String} {s : SlotTable} :
    Builder.Names (tables.map .ofTable) name s ↔
      ∃ t ∈ tables, t.name = name ∧ .ofTable t = s := by
  constructor
  · intro hs
    obtain ⟨t, ht, rfl⟩ := List.mem_map.1 hs.mem
    exact ⟨t, ht, hs.name_eq, rfl⟩
  · rintro ⟨t, ht, rfl, rfl⟩
    refine ⟨ofName?_eq_none_iff.2 (h.name_ne t ht), ?_⟩
    cases hfind : (tables.map SlotTable.ofTable).find? (·.name = t.name) with
    | none =>
      have := List.find?_eq_none.1 hfind _ (List.mem_map.2 ⟨t, ht, rfl⟩)
      simp [SlotTable.ofTable] at this
    | some s =>
      obtain ⟨u, hu, rfl⟩ := List.mem_map.1 (List.mem_of_find?_eq_some hfind)
      have same := List.find?_some hfind
      have hname : u.name = t.name := of_decide_eq_true same
      rw [h.eq_of_name_eq hu ht hname]

/-- A slot without a target is a slot that no entry has. -/
theorem unmapped_iff {t : Table} (ht : t ∈ tables) {i : Nat} :
    t.Unmapped i ↔
      i < 2 ^ (SlotTable.ofTable t).width ∧ (SlotTable.ofTable t).target? i = none := by
  have valid := SlotTable.valid_ofTable (h.wellFormed t ht)
  constructor
  · rintro ⟨w, rfl, hnone⟩
    exact ⟨valid.indexOf_lt w, (SlotTable.target?_ofTable (h.wellFormed t ht) w).trans hnone⟩
  · rintro ⟨hi, hnone⟩
    obtain ⟨w, rfl⟩ := valid.exists_indexOf_eq hi
    exact ⟨w, rfl, (SlotTable.target?_ofTable (h.wellFormed t ht) w).symm.trans hnone⟩

/-- A target is live in index order exactly if an entry has it, or if it is the target of other
words and there is such a word. -/
theorem isLive_iff {t : Table} (ht : t ∈ tables) {target : String} :
    (SlotTable.ofTable t).IsLive target ↔ (∃ e ∈ t.explicit, e.2 = target) ∨
      (t.otherwise? = some target ∧
        ∃ w, ∀ e ∈ t.explicit, Table.covers t.bits e.1 w = false) := by
  have valid := SlotTable.valid_ofTable (h.wellFormed t ht)
  refine or_congr ?_ (and_congr_right fun _ => ?_)
  · simp only [SlotTable.patterns_ofTable, List.mem_map, exists_exists_and_eq_and,
      SlotTable.patternOf]
  · constructor
    · rintro ⟨i, hi, hall⟩
      obtain ⟨w, rfl⟩ := valid.exists_indexOf_eq hi
      refine ⟨w, fun e he => ?_⟩
      rw [← SlotTable.takes_patternOf (h.wellFormed t ht) he]
      exact hall _ (List.mem_map.2 ⟨e, he, rfl⟩)
    · rintro ⟨w, hall⟩
      refine ⟨(SlotTable.ofTable t).indexOf w, valid.indexOf_lt w, fun p hp => ?_⟩
      obtain ⟨e, he, rfl⟩ := List.mem_map.1 hp
      exact (SlotTable.takes_patternOf (h.wellFormed t ht) he w).trans (hall e he)

/-- A table in index order has the live targets of the table. -/
theorem live_iff {name target : String} :
    Builder.Live (tables.map .ofTable) name target ↔ Live tables name target := by
  constructor
  · rintro ⟨s, hs, hlive⟩
    obtain ⟨t, ht, hname, rfl⟩ := h.names_iff.1 hs
    exact ⟨t, ht, hname, (h.isLive_iff ht).1 hlive⟩
  · rintro ⟨t, ht, hname, hlive⟩
    exact ⟨.ofTable t, h.names_iff.2 ⟨t, ht, hname, rfl⟩, (h.isLive_iff ht).2 hlive⟩

/-- Both are the same relation. -/
theorem live_eq : Builder.Live (tables.map .ofTable) = Live tables := by
  funext name target
  exact propext h.live_iff

/-- Where tables in index order lead a word, the tables lead it. -/
theorem leads {w : Word} {name : String} {c : Category}
    (hc : Builder.LeadsTo (tables.map .ofTable) w name c) : Leads tables w name c := by
  induction hc with
  | category hname =>
    obtain rfl := ofName?_eq_some_iff.1 hname
    exact .category _
  | table hname htarget _ ih =>
    obtain ⟨t, ht, rfl, rfl⟩ := h.names_iff.1 hname
    rw [SlotTable.target?_ofTable (h.wellFormed t ht)] at htarget
    exact .table ht htarget ih

/-- A name leads a word to one category. -/
theorem leads_unique {w : Word} {name : String} {c d : Category} (hc : Leads tables w name c)
    (hd : Leads tables w name d) : c = d := by
  induction hc with
  | category c =>
    generalize hname : c.name = name at hd
    cases hd with
    | category d =>
      have hd := ofName?_eq_some_iff.2 hname.symm
      exact Option.some.inj ((Category.ofName?_name c).symm.trans hd)
    | table ht => exact absurd hname (h.name_ne _ ht c)
  | @table t target c ht htarget _ ih =>
    generalize hname : t.name = name at hd
    cases hd with
    | category d => exact absurd hname.symm (h.name_ne t ht d)
    | table hu htarget' hd' =>
      obtain rfl := h.eq_of_name_eq ht hu hname
      obtain rfl := Option.some.inj (htarget.symm.trans htarget')
      exact ih hd'

end Readable

end Tables

end AArch64
