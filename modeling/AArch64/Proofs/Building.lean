import AArch64.Proofs.Compilation
import AArch64.Proofs.Interpretation

/-!
# What is built

A graph is built exactly for tables that are accepted, a rule stated over the tables as they are
given and the roots that are registered. A graph that is built classifies every word as the tables
lead it, and a defect that is reported instead is present in the tables.

## Main definitions

* `AArch64.Tables.Accepts` — the rules for tables and roots.
* `AArch64.Tables.Present` — a defect is present.
* `AArch64.Builder.ofCalls` — a builder after a sequence of registrations.
* `AArch64.Builder.Origin` — the arena that a graph was made of.

## Main results

* `AArch64.Builder.build_outcome` — what is known of a graph that is built and of a defect that is
  reported.
* `AArch64.Builder.classify_eq_interpretation` — a graph classifies words as the tables lead them.
* `AArch64.Builder.build_iff_accepts_and_error_present` — the input is accepted exactly when the
  rules hold, and a reported defect is present.
-/

set_option autoImplicit false

namespace AArch64

namespace Tables

variable {tables : List Table} {roots : Isa → Option String}

/-! ## The rules -/

/-- The name that an instruction set starts at: its own root, or that of the base instruction
set. -/
def start? (roots : Isa → Option String) (isa : Isa) : Option String :=
  (roots isa).or (roots .a64)

/-- A name that a root leads to along live targets. -/
def Reachable (tables : List Table) (roots : Isa → Option String) (name : String) : Prop :=
  ∃ isa root, start? roots isa = some root ∧ Relation.ReflTransGen (Live tables) root name

/-- The rules for tables and roots. The names of tables differ from each other and from those of
categories, targets and roots are defined, there is a base root, and of the tables that are
reachable none is on a cycle and none has a slot that no entry has. -/
structure Accepts (tables : List Table) (roots : Isa → Option String) : Prop extends
    Readable tables where
  target_defined : ∀ t ∈ tables, ∀ e ∈ t.mapping, Defined tables e.2
  base_root : ∃ name, roots .a64 = some name
  root_defined : ∀ isa name, start? roots isa = some name → Defined tables name
  acyclic : ∀ name, Reachable tables roots name → ¬ Relation.TransGen (Live tables) name name
  mapped : ∀ t ∈ tables, Reachable tables roots t.name → ∀ i, ¬ t.Unmapped i

/-- A defect is present in tables and roots. -/
def Present (tables : List Table) (roots : Isa → Option String) : Defect → Prop
  | .duplicateNode n => n ∈ tables.map (·.name) ∧
    ((∃ c : Category, c.name = n) ∨ 2 ≤ (tables.map (·.name)).count n)
  | .unknownTarget n target => ∃ t ∈ tables, t.name = n ∧ (∃ e ∈ t.mapping, e.2 = target) ∧
    ¬ Defined tables target
  | .missingBaseRoot => roots .a64 = none
  | .unknownRoot n => (∃ isa, start? roots isa = some n) ∧ ¬ Defined tables n
  | .cycle n => Reachable tables roots n ∧ Relation.TransGen (Live tables) n n
  | .unmappedSlot n i => Reachable tables roots n ∧
    ∃ t ∈ tables, t.name = n ∧ t.Unmapped i ∧ ∀ j < i, ¬ t.Unmapped j
  | d => ∃ t ∈ tables, t.Shows d

/-- A defect that one of the tables shows is present. -/
theorem present_of_shows {t : Table} (ht : t ∈ tables) {d : Defect} (h : t.Shows d) :
    Present tables roots d := by
  cases d
  case duplicateNode => exact h.elim
  case unknownTarget => exact h.elim
  case unmappedSlot => exact h.elim
  case cycle => exact h.elim
  case unknownRoot => exact h.elim
  case missingBaseRoot => exact h.elim
  all_goals exact ⟨t, ht, h⟩

/-- No defect is present where the rules hold. -/
theorem Accepts.not_present (h : Accepts tables roots) (d : Defect) :
    ¬ Present tables roots d := by
  intro hd
  cases d
  case duplicateNode n =>
    obtain ⟨hmem, ⟨c, hc⟩ | hcount⟩ := hd
    · obtain ⟨t, ht, rfl⟩ := List.mem_map.1 hmem
      exact h.name_ne t ht c hc
    · exact absurd (List.nodup_iff_count.1 h.names_nodup n) (by omega)
  case unknownTarget n target =>
    obtain ⟨t, ht, -, ⟨e, he, rfl⟩, hnot⟩ := hd
    exact hnot (h.target_defined t ht e he)
  case missingBaseRoot =>
    obtain ⟨name, hname⟩ := h.base_root
    exact absurd (hname.symm.trans hd) (by simp)
  case unknownRoot n =>
    obtain ⟨⟨isa, hisa⟩, hnot⟩ := hd
    exact hnot (h.root_defined isa n hisa)
  case cycle n => exact h.acyclic n hd.1 hd.2
  case unmappedSlot n i =>
    obtain ⟨hreach, t, ht, rfl, hi, -⟩ := hd
    exact h.mapped t ht hreach i hi
  all_goals
    obtain ⟨t, ht, hshows⟩ := hd
    exact (h.wellFormed t ht).not_shows _ hshows

end Tables

namespace Builder

open Tables

/-! ## Registered roots -/

/-- The name that was registered last for an instruction set. -/
def lastRegistered? (registrations : List (Isa × String)) (isa : Isa) : Option String :=
  (registrations.reverse.find? (·.1 = isa)).map (·.2)

/-- A builder after a sequence of registrations. -/
def register (b : Builder) (registrations : List (Isa × String)) : Builder :=
  registrations.foldl (fun (b : Builder) r => b.root r.1 r.2) b

/-- The builder of tables after a sequence of registrations. -/
def ofCalls (tables : List Table) (registrations : List (Isa × String)) (optimize : Bool) :
    Builder :=
  (register { tables } registrations).optimizing optimize

/-- A registration gives its instruction set a root and leaves the other one's. -/
theorem root?_root (b : Builder) (isa isa' : Isa) (name : String) :
    (b.root isa name).root? isa' = if isa = isa' then some name else b.root? isa' := by
  rw [root, root?, List.find?_append]
  by_cases h : isa = isa'
  · subst h
    have removed : (b.roots.filter (·.1 ≠ isa)).find? (·.1 = isa) = none := by
      rw [List.find?_eq_none]
      intro r hr
      simpa using (List.mem_filter.1 hr).2
    rw [removed, Option.none_or, if_pos rfl]
    simp
  · have kept : (b.roots.filter (·.1 ≠ isa)).find? (·.1 = isa') =
        b.roots.find? (·.1 = isa') := by
      rw [List.find?_filter]
      congr 1
      funext r
      by_cases hr : r.1 = isa'
      · simp [hr, Ne.symm h]
      · simp [hr]
    rw [kept, if_neg h, root?]
    simp [h]

/-- The root of an instruction set is the one that was registered last. -/
theorem root?_ofCalls (tables : List Table) (registrations : List (Isa × String))
    (optimize : Bool) :
    (ofCalls tables registrations optimize).root? = lastRegistered? registrations := by
  funext isa
  show (register { tables } registrations).root? isa = _
  induction registrations using List.reverseRecOn with
  | nil => rfl
  | append_singleton rs r ih =>
    rw [register, List.foldl_append, List.foldl_cons, List.foldl_nil, root?_root, ← register, ih,
      lastRegistered?, lastRegistered?, List.reverse_concat, List.find?_cons]
    by_cases h : r.1 = isa <;> simp [h]

/-- Registrations leave the tables. -/
theorem tables_ofCalls (tables : List Table) (registrations : List (Isa × String))
    (optimize : Bool) : (ofCalls tables registrations optimize).tables = tables := by
  show (register { tables } registrations).tables = _
  induction registrations using List.reverseRecOn with
  | nil => rfl
  | append_singleton rs r ih =>
    rw [register, List.foldl_append, List.foldl_cons, List.foldl_nil]
    exact ih

/-! ## Reading tables -/

/-- A table with a name of its own can be read behind the others. -/
theorem readable_append {before : List Table} {t : Table} (h : Readable before)
    (hwell : t.WellFormed) (hcategory : ∀ c : Category, c.name ≠ t.name)
    (hname : t.name ∉ before.map (·.name)) : Readable (before ++ [t]) where
  wellFormed := List.forall_mem_append.2 ⟨h.wellFormed, List.forall_mem_singleton.2 hwell⟩
  names_nodup := by
    rw [List.map_append, List.nodup_append]
    refine ⟨h.names_nodup, List.nodup_singleton _, ?_⟩
    rintro n hn m hm rfl
    obtain rfl : n = t.name := List.mem_singleton.1 hm
    exact hname hn
  name_ne := List.forall_mem_append.2 ⟨h.name_ne, List.forall_mem_singleton.2 hcategory⟩

/-- Whether a name was read before. -/
theorem any_name_iff {before : List Table} {name : String} :
    (before.map SlotTable.ofTable).any (·.name = name) ↔ name ∈ before.map (·.name) := by
  rw [List.any_map, List.any_eq_true, List.mem_map]
  exact exists_congr fun t => and_congr_right fun _ => decide_eq_true_iff

/-- Tables are read in order, behind those that were read already. -/
theorem readTables_outcome {before : List Table} (hbefore : Readable before)
    (tables : List Table) (roots : Isa → Option String) :
    Outcome (readTables (before.map .ofTable) tables)
      (fun read => read = (before ++ tables).map .ofTable ∧ Readable (before ++ tables))
      (Present (before ++ tables) roots) := by
  induction tables generalizing before with
  | nil =>
    rw [readTables, List.append_nil]
    exact ⟨rfl, hbefore⟩
  | cons t tables ih =>
    rw [readTables]
    have ht : t ∈ before ++ t :: tables := by simp
    refine Outcome.bind (t.validate_outcome.mono (fun _ h => h) fun d => present_of_shows ht) ?_
    intro _ hwell
    refine Outcome.guard (fun hdup => ?_) fun hnew => ?_
    · refine ⟨List.mem_map.2 ⟨t, ht, rfl⟩, ?_⟩
      rcases Bool.or_eq_true_iff.1 hdup with hcat | hany
      · obtain ⟨c, hc⟩ := Option.isSome_iff_exists.1 hcat
        exact .inl ⟨c, ofName?_eq_some_iff.1 hc⟩
      · have one : 1 ≤ (before.map (·.name)).count t.name :=
          List.count_pos_iff.2 (any_name_iff.1 hany)
        refine .inr ?_
        rw [List.map_append, List.count_append, List.map_cons, List.count_cons_self]
        omega
    · rw [Bool.or_eq_true_iff, not_or, Bool.not_eq_true, Option.isSome_eq_false_iff,
        Option.isNone_iff_eq_none, ofName?_eq_none_iff, any_name_iff] at hnew
      have := ih (readable_append hbefore hwell hnew.1 hnew.2)
      rw [List.map_append, List.append_assoc] at this
      exact this

/-- Targets are checked in order. -/
theorem checkTargets_outcome (read : List SlotTable) (tables : List Table) :
    Outcome (checkTargets read tables)
      (fun _ => ∀ t ∈ tables, ∀ e ∈ t.mapping, isDefined read e.2)
      (fun d => ∃ t ∈ tables, ∃ e ∈ t.mapping, isDefined read e.2 = false ∧
        d = .unknownTarget t.name e.2) := by
  induction tables with
  | nil =>
    intro t ht
    simp at ht
  | cons t tables ih =>
    rw [checkTargets]
    cases hfind : t.mapping.find? fun e => !isDefined read e.2 with
    | some e =>
      have hnot := List.find?_some hfind
      exact ⟨t, by simp, e, List.mem_of_find?_eq_some hfind, by simpa using hnot, rfl⟩
    | none =>
      refine ih.mono (fun _ hall u hu => ?_) ?_
      · rcases List.mem_cons.1 hu with rfl | hu
        · intro e he
          simpa using List.find?_eq_none.1 hfind e he
        · exact hall u hu
      · rintro d ⟨u, hu, hd⟩
        exact ⟨u, List.mem_cons_of_mem _ hu, hd⟩

/-! ## Building -/

section Build

variable {tables : List Table} {roots : Isa → Option String}

/-- No tables can be read. -/
theorem readable_nil : Readable [] where
  wellFormed t ht := by simp at ht
  names_nodup := .nil
  name_ne t ht := by simp at ht

/-- The target of the catch-all is that of an entry. -/
theorem mem_mapping_of_otherwise? {t : Table} {target : String} (h : t.otherwise? = some target) :
    ∃ e ∈ t.mapping, e.2 = target := by
  obtain ⟨e, he, rfl⟩ := Option.map_eq_some_iff.1 h
  exact ⟨e, List.mem_of_getLast? (Option.filter_eq_some_iff.1 he).1, rfl⟩

/-- Tables that were read, with targets that are defined, can be compiled. -/
theorem valid_of_readable (h : Readable tables)
    (htarget : ∀ t ∈ tables, ∀ e ∈ t.mapping, isDefined (tables.map .ofTable) e.2) :
    Valid (tables.map .ofTable) where
  table _ ht := h.valid ht
  target s hs target hlive := by
    obtain ⟨t, ht, rfl⟩ := List.mem_map.1 hs
    rcases (h.isLive_iff ht).1 hlive with ⟨e, he, rfl⟩ | ⟨hother, -⟩
    · exact htarget t ht e (List.mem_filter.1 he).1
    · obtain ⟨e, he, rfl⟩ := mem_mapping_of_otherwise? hother
      exact htarget t ht e he

/-- A defect that the compilation of reachable names reports is present. -/
theorem present_of_blames (h : Readable tables) {d : Defect}
    (hd : Blames (tables.map .ofTable) (Reachable tables roots) d) : Present tables roots d := by
  cases d
  case cycle n =>
    obtain ⟨hreach, hcycle⟩ := hd
    exact ⟨hreach, h.live_eq ▸ hcycle⟩
  case unmappedSlot n i =>
    obtain ⟨hreach, s, hs, hi, hnone, hbefore⟩ := hd
    obtain ⟨t, ht, hname, rfl⟩ := h.names_iff.1 hs
    refine ⟨hreach, t, ht, hname, (h.unmapped_iff ht).2 ⟨hi, hnone⟩, fun j hj hun => ?_⟩
    have hsome := hbefore j hj
    rw [((h.unmapped_iff ht).1 hun).2] at hsome
    cases hsome
  all_goals exact hd.elim

/-- The rules hold if every root is recorded in an arena with the invariant: recorded names are
sound, and so is what they lead to. -/
theorem accepts_of_invariant (h : Readable tables)
    (htarget : ∀ t ∈ tables, ∀ e ∈ t.mapping, isDefined (tables.map .ofTable) e.2)
    (hbase : ∃ name, roots .a64 = some name) {a : Arena}
    (hinv : Arena.Invariant (tables.map .ofTable) a)
    (hroot : ∀ isa name, start? roots isa = some name →
      isDefined (tables.map .ofTable) name ∧ ∃ p, a.positions.lookup name = some p) :
    Accepts tables roots := by
  have sound : ∀ name, Reachable tables roots name → Sound (tables.map .ofTable) name := by
    rintro name ⟨isa, root, hstart, hleads⟩
    obtain ⟨-, p, hp⟩ := hroot isa root hstart
    exact (hinv.sound hp).of_reflTransGen (h.live_eq ▸ hleads)
  refine ⟨h, fun t ht e he => isDefined_iff.1 (htarget t ht e he), hbase,
    fun isa name hstart => isDefined_iff.1 (hroot isa name hstart).1, fun name hreach => ?_,
    fun t ht hreach i hun => ?_⟩
  · exact h.live_eq ▸ (sound name hreach).not_transGen
  · obtain ⟨hi, hnone⟩ := (h.unmapped_iff ht).1 hun
    have hsome := (sound t.name hreach).slot (h.names_iff.2 ⟨t, ht, rfl, rfl⟩) hi
    rw [hnone] at hsome
    cases hsome

/-- What is known of a graph that was built: a walk of a word from the root of an instruction set
passes all checks and ends at the category where the root leads the word. -/
structure Interprets (tables : List Table) (roots : Isa → Option String) (g : Graph) : Prop where
  ordered : Graph.Ordered g.cells
  root_lt : ∀ isa, g.root isa < g.size
  ends : ∀ isa, ∃ root, start? roots isa = some root ∧
    ∀ w, ∃ c, Graph.Ends g.cells w (g.root isa) c ∧ Leads tables w root c

/-- The walk of a word is found within as many steps as there are cells. -/
theorem Interprets.classify {g : Graph} (h : Interprets tables roots g) (w : Word) (isa : Isa) :
    ∃ root c, start? roots isa = some root ∧ Leads tables w root c ∧
      Graph.Ends g.cells w (g.root isa) c ∧ g.classify? w isa = some c ∧ g.classify w isa = c := by
  obtain ⟨root, hroot, hends⟩ := h.ends isa
  obtain ⟨c, hc, hleads⟩ := hends w
  have found : g.classify? w isa = some c :=
    Graph.walk_eq_some_of_ends h.ordered hc (h.root_lt isa)
  refine ⟨root, c, hroot, hleads, hc, found, ?_⟩
  rw [Graph.classify, found, Option.getD_some]

/-! ### The roots -/

/-- The base instruction set starts at its own root. -/
theorem start?_a64 {base : String} (h : roots .a64 = some base) :
    start? roots .a64 = some base := by
  rw [start?, h, Option.some_or]

/-- The capability state starts where the base instruction set does if it has no root. -/
theorem start?_c64 {base : String} (h : roots .a64 = some base) :
    start? roots .c64 = some ((roots .c64).getD base) := by
  rw [start?, h]
  cases roots .c64 <;> rfl

/-- What a reachable name leads to along a live target is reachable. -/
theorem reachable_of_live (h : Readable tables) {n m : String} (hn : Reachable tables roots n)
    (hlive : Live (tables.map .ofTable) n m) : Reachable tables roots m := by
  obtain ⟨isa, root, hstart, hleads⟩ := hn
  exact ⟨isa, root, hstart, hleads.tail (h.live_iff.1 hlive)⟩

/-- A root is recorded, and nothing that is not reachable; a defect that is reported instead is
present. -/
theorem compileRoot_meets_present (h : Readable tables)
    (hvalid : Valid (tables.map .ofTable)) {optimize : Bool} {a : Arena} {isa : Isa} {root : String}
    (hstart : start? roots isa = some root)
    (hfresh : Fresh (Avoided [] (Reachable tables roots)) a) :
    (compileRoot (tables.map .ofTable) optimize root).Meets a
      (fun p b => isDefined (tables.map .ofTable) root ∧ Records (tables.map .ofTable) optimize
        (Avoided [] (Reachable tables roots)) root a p b)
      (Present tables roots) := by
  have closed : ∀ n m, Reachable tables roots n → Live (tables.map .ofTable) n m →
      Reachable tables roots m := fun n m => reachable_of_live h
  refine Outcome.mono (compileRoot_meets hvalid closed ⟨isa, root, hstart, .refl⟩ hfresh)
    (fun _ h => h) ?_
  rintro d (hd | ⟨hnot, rfl⟩)
  · exact present_of_blames h hd
  · refine ⟨⟨isa, hstart⟩, fun hdef => ?_⟩
    rw [isDefined_iff.2 hdef] at hnot
    cases hnot

/-- An arena that a graph was made of: names were recorded in it one after the other, all of them
reachable, and the roots among them. -/
structure Origin (tables : List Table) (roots : Isa → Option String) (optimize : Bool)
    (g : Graph) (a : Arena) : Prop where
  grows : Arena.Grows (tables.map .ofTable) optimize {} a
  cells_eq : a.cells = g.cells
  root : ∀ isa, ∃ root, start? roots isa = some root ∧ isDefined (tables.map .ofTable) root ∧
    a.positions.lookup root = some (g.root isa)
  reachable : ∀ {name : String} {p : Nat}, a.positions.lookup name = some p →
    Reachable tables roots name

/-- Both roots are recorded, the first one before the second. -/
theorem compileRoots_meets (h : Readable tables) (hvalid : Valid (tables.map .ofTable))
    {optimize : Bool} {base : String} (hbase : roots .a64 = some base) :
    (do
      let baseRoot ← compileRoot (tables.map .ofTable) optimize base
      let capabilityRoot ← compileRoot (tables.map .ofTable) optimize ((roots .c64).getD base)
      return (baseRoot, capabilityRoot) : Compile (Nat × Nat)).Meets {}
      (fun r a => Origin tables roots optimize
        { cells := a.cells, baseRoot := r.1, capabilityRoot := r.2 } a)
      (Present tables roots) := by
  have empty : Fresh (Avoided [] (Reachable tables roots)) {} := fun n _ => rfl
  refine (compileRoot_meets_present h hvalid (start?_a64 hbase) empty).bind ?_
  rintro p a ⟨hdef, hgrows, hp, hfresh⟩
  refine (compileRoot_meets_present h hvalid (start?_c64 hbase) hfresh).bind ?_
  rintro q a' ⟨hdef', hgrows', hq, hfresh'⟩
  refine ⟨hgrows.trans hgrows', rfl, fun isa => ?_, fun {name p} hname => ?_⟩
  · cases isa with
    | a64 => exact ⟨base, start?_a64 hbase, hdef, hgrows'.lookup hp⟩
    | c64 => exact ⟨(roots .c64).getD base, start?_c64 hbase, hdef', hq⟩
  · by_contra hunreached
    rw [hfresh' name (.inr hunreached)] at hname
    cases hname

/-- A graph is built for tables and roots that the rules accept, from an arena that the roots were
recorded in, and a defect that is reported is present. -/
theorem build_outcome (b : Builder) :
    Outcome b.build (fun g => Accepts b.tables b.root? ∧ Interprets b.tables b.root? g ∧
        ∃ a, Origin b.tables b.root? b.optimize g a)
      (Present b.tables b.root?) := by
  rw [build]
  refine Outcome.bind (readTables_outcome readable_nil b.tables b.root?) ?_
  rintro read ⟨rfl, h⟩
  rw [List.nil_append] at h ⊢
  refine Outcome.bind ((checkTargets_outcome (b.tables.map .ofTable) b.tables).mono
    (fun _ hall => hall) ?_) ?_
  · rintro d ⟨t, ht, e, he, hnot, rfl⟩
    refine ⟨t, ht, rfl, ⟨e, he, rfl⟩, fun hdef => ?_⟩
    rw [isDefined_iff.2 hdef] at hnot
    cases hnot
  intro _ htarget
  have hvalid := valid_of_readable h htarget
  cases hbase : b.root? .a64 with
  | none => exact hbase
  | some base =>
    refine Outcome.bind (compileRoots_meets h hvalid hbase) ?_
    rintro ⟨⟨p, q⟩, a⟩ origin
    have hinv := origin.grows.invariant hvalid.table
    have hroot : ∀ isa name, start? b.root? isa = some name →
        isDefined (b.tables.map .ofTable) name ∧ ∃ p, a.positions.lookup name = some p := by
      intro isa name hname
      obtain ⟨root, hstart, hdef, hp⟩ := origin.root isa
      obtain rfl := Option.some.inj (hname.symm.trans hstart)
      exact ⟨hdef, _, hp⟩
    refine ⟨accepts_of_invariant h htarget ⟨base, hbase⟩ hinv hroot,
      ⟨hinv.ordered, fun isa => ?_, fun isa => ?_⟩, a, origin⟩
    · obtain ⟨root, -, -, hp⟩ := origin.root isa
      exact hinv.position_lt hp
    · obtain ⟨root, hstart, -, hp⟩ := origin.root isa
      refine ⟨root, hstart, fun w => ?_⟩
      obtain ⟨c, hc, hleads⟩ := hinv.ends hp w
      exact ⟨c, hc, h.leads hleads⟩

/-- What is known of a graph that was built. -/
theorem accepts_and_interprets {b : Builder} {g : Graph} (h : b.build = .ok g) :
    Accepts b.tables b.root? ∧ Interprets b.tables b.root? g := by
  obtain ⟨haccepts, hinterprets, -⟩ := (build_outcome b).of_ok h
  exact ⟨haccepts, hinterprets⟩

/-- A graph that was built was made of an arena. -/
theorem exists_origin {b : Builder} {g : Graph} (h : b.build = .ok g) :
    ∃ a, Origin b.tables b.root? b.optimize g a :=
  ((build_outcome b).of_ok h).2.2

/-- A graph that was built has the cells of an arena that names were recorded in. -/
theorem grows_of_build {b : Builder} {g : Graph} (h : b.build = .ok g) :
    ∃ a, Arena.Grows (b.tables.map .ofTable) b.optimize {} a ∧ a.cells = g.cells := by
  obtain ⟨a, origin⟩ := exists_origin h
  exact ⟨a, origin.grows, origin.cells_eq⟩

end Build

/-! ## Main results -/

/-- **A graph classifies words as its tables lead them.** A graph that is built classifies every
word in either instruction set as the category where the name that was registered last for the
instruction set (for the base instruction set, if it has none) leads the word, the only one. The
walk to it ends, and no check of a position, a sampled bit or a slot fails on the way. -/
theorem classify_eq_interpretation {tables : List Table} {registrations : List (Isa × String)}
    {optimize : Bool} {g : Graph} (h : (ofCalls tables registrations optimize).build = .ok g)
    (w : Word) (isa : Isa) :
    ∃ root c, start? (lastRegistered? registrations) isa = some root ∧
      (∀ d, Leads tables w root d ↔ d = c) ∧ Graph.Ends g.cells w (g.root isa) c ∧
      g.classify? w isa = some c ∧ g.classify w isa = c := by
  have built := accepts_and_interprets h
  rw [root?_ofCalls, tables_ofCalls] at built
  obtain ⟨haccepts, hinterprets⟩ := built
  obtain ⟨root, c, hroot, hleads, hc, found⟩ := hinterprets.classify w isa
  refine ⟨root, c, hroot, fun d => ⟨fun hd => ?_, fun hd => hd ▸ hleads⟩, hc, found⟩
  exact haccepts.toReadable.leads_unique hd hleads

/-- Two tables, the first of which sends some slots to the second. -/
def twoTables : List Table :=
  [⟨"Top", [29, 4], [("1x", "System"), ("x0", "Low"), ("otherwise", "Extract")]⟩,
    ⟨"Low", [0], [("0", "Bitfield"), ("1", "MoveWide")]⟩]

/-- The root that is registered last for the capability state is the second table. -/
theorem classify_eq_interpretation_twoTables :
    ∃ g, (ofCalls twoTables [(.c64, "Top"), (.a64, "Top"), (.c64, "Low")] true).build = .ok g ∧
      ∃ root c,
        start? (lastRegistered? [(.c64, "Top"), (.a64, "Top"), (.c64, "Low")]) .c64 = some root ∧
        (∀ d, Leads twoTables 0x00000001 root d ↔ d = c) ∧
        Graph.Ends g.cells 0x00000001 (g.root .c64) c ∧
        g.classify? 0x00000001 .c64 = some c ∧ g.classify 0x00000001 .c64 = c := by
  have built :
      (ofCalls twoTables [(.c64, "Top"), (.a64, "Top"), (.c64, "Low")] true).build.isOk := by
    decide +kernel
  cases hbuild : (ofCalls twoTables [(.c64, "Top"), (.a64, "Top"), (.c64, "Low")] true).build with
  | ok g => exact ⟨g, rfl, classify_eq_interpretation hbuild 0x00000001 .c64⟩
  | error d =>
    rw [hbuild] at built
    cases built

/-- **Building accepts exactly what the rules accept, and blames only what is there.** A graph is
built for tables and registered roots if and only if the rules hold for them, whether or not tables
are simplified; a defect that is reported instead is present in them. -/
theorem build_iff_accepts_and_error_present (tables : List Table)
    (registrations : List (Isa × String)) (optimize : Bool) :
    ((∃ g, (ofCalls tables registrations optimize).build = .ok g) ↔
      Accepts tables (lastRegistered? registrations)) ∧
    ∀ d, (ofCalls tables registrations optimize).build = .error d →
      Present tables (lastRegistered? registrations) d := by
  have built := build_outcome (ofCalls tables registrations optimize)
  rw [root?_ofCalls, tables_ofCalls] at built
  refine ⟨⟨fun ⟨g, hg⟩ => (built.of_ok hg).1, fun haccepts => ?_⟩, fun d hd => built.of_error hd⟩
  obtain ⟨g, hg, -⟩ := built.exists_ok haccepts.not_present
  exact ⟨g, hg⟩

end Builder

end AArch64
