import AArch64.Proofs.Building

/-!
# Tables among others

A graph depends on the tables that the roots lead to, and on nothing else. The order of the tables,
the order in which the roots of different instruction sets are registered, and further tables that
no root leads to, even tables that could not be compiled, leave every cell where it was.

A compilation with more tables looks up more names, and has more steps before it would give up. So
it is compared with the other one on what that one answers: where one step answers, the other one
answers the same and leaves the same arena.

## Main definitions

* `AArch64.Tables.Additional` — tables that can stand beside others.
* `AArch64.Builder.SameOrder` — registrations in the same order for each instruction set.
* `AArch64.Builder.Compile.ExtendedBy` — a step of the compilation answers at least as often.

## Main results

* `AArch64.Builder.compile_extendedBy` — compiling a name with more tables.
* `AArch64.Builder.readTables_of_readable` — tables are read if they are well formed and have names
  of their own.
* `AArch64.Builder.build_among_others` — building a graph with more tables, in another order.
-/

set_option autoImplicit false

namespace AArch64

namespace Tables

/-- Tables that can stand beside others: each is valid on its own and has a name of its own, and its
targets are defined. They may lead back to themselves and leave slots without a target. -/
structure Additional (tables more : List Table) : Prop where
  valid : ∀ t ∈ more, t.validate = .ok ()
  names_nodup : (more.map (·.name)).Nodup
  name_fresh : ∀ t ∈ more, t.name ∉ tables.map (·.name) ∧ ∀ c : Category, c.name ≠ t.name
  target_defined : ∀ t ∈ more, ∀ e ∈ t.mapping, Defined (tables ++ more) e.2

variable {tables tables' more : List Table}

/-- Tables with additional ones can be read. -/
theorem Readable.append (h : Readable tables) (hmore : Additional tables more) :
    Readable (tables ++ more) where
  wellFormed := List.forall_mem_append.2
    ⟨h.wellFormed, fun t ht => t.validate_outcome.of_ok (hmore.valid t ht)⟩
  names_nodup := by
    rw [List.map_append, List.nodup_append]
    refine ⟨h.names_nodup, hmore.names_nodup, ?_⟩
    rintro n hn m hm rfl
    obtain ⟨t, ht, rfl⟩ := List.mem_map.1 hm
    exact (hmore.name_fresh t ht).1 hn
  name_ne := List.forall_mem_append.2 ⟨h.name_ne, fun t ht => (hmore.name_fresh t ht).2⟩

/-- Tables can be read in any order. -/
theorem Readable.perm (h : Readable tables) (hperm : tables.Perm tables') : Readable tables' where
  wellFormed t ht := h.wellFormed t (hperm.mem_iff.2 ht)
  names_nodup := (hperm.map _).nodup_iff.1 h.names_nodup
  name_ne t ht := h.name_ne t (hperm.mem_iff.2 ht)

/-- What is defined stays defined when there are more tables. -/
theorem Defined.mono {name : String} (h : Defined tables name)
    (hsub : ∀ t ∈ tables, t ∈ tables') : Defined tables' name :=
  h.imp_right fun ⟨t, ht, hname⟩ => ⟨t, hsub t ht, hname⟩

/-- A name stands for the same table when there are more tables. -/
theorem Readable.names_mono (h : Readable tables) (h' : Readable tables')
    (hsub : ∀ t ∈ tables, t ∈ tables') {name : String} {s : SlotTable}
    (hs : Builder.Names (tables.map .ofTable) name s) :
    Builder.Names (tables'.map .ofTable) name s := by
  obtain ⟨t, ht, hname, rfl⟩ := h.names_iff.1 hs
  exact h'.names_iff.2 ⟨t, hsub t ht, hname, rfl⟩

end Tables

namespace Builder

open Tables

/-! ## Registrations -/

/-- The registrations of each instruction set come in the same order. Those of different instruction
sets may be interleaved in another way. -/
def SameOrder (registrations registrations' : List (Isa × String)) : Prop :=
  ∀ isa, registrations.filter (·.1 = isa) = registrations'.filter (·.1 = isa)

/-- What is registered last for an instruction set is the last of its registrations. -/
theorem lastRegistered?_eq (registrations : List (Isa × String)) (isa : Isa) :
    lastRegistered? registrations isa =
      ((registrations.filter (·.1 = isa)).getLast?).map (·.2) := by
  rw [lastRegistered?, ← List.head?_filter, List.filter_reverse, List.head?_reverse]

/-- Registrations in the same order for each instruction set register the same roots. -/
theorem SameOrder.lastRegistered?_eq {registrations registrations' : List (Isa × String)}
    (h : SameOrder registrations registrations') :
    lastRegistered? registrations = lastRegistered? registrations' := by
  funext isa
  rw [Builder.lastRegistered?_eq, Builder.lastRegistered?_eq, h isa]

/-! ## Steps of two compilations -/

/-- Whenever the first step of a compilation answers, the second one answers the same and leaves the
same arena. -/
def Compile.ExtendedBy {α : Type} (x y : Compile α) : Prop :=
  ∀ a r, x.run a = .ok r → y.run a = .ok r

namespace Compile.ExtendedBy

variable {α β : Type} {x y : Compile α}

/-- A step extends itself. -/
theorem refl (x : Compile α) : x.ExtendedBy x :=
  fun _ _ h => h

/-- A step that fails answers nothing. -/
theorem of_throw (d : Defect) (y : Compile α) : (throw d : Compile α).ExtendedBy y :=
  fun _ _ h => nomatch h

/-- Steps may be extended one after another. -/
theorem bind {f g : α → Compile β} (h : x.ExtendedBy y) (hfg : ∀ r, (f r).ExtendedBy (g r)) :
    (x >>= f).ExtendedBy (y >>= g) := by
  intro a r hr
  have run_left : (x >>= f).run a = x.run a >>= fun r => (f r.1).run r.2 := rfl
  have run_right : (y >>= g).run a = y.run a >>= fun r => (g r.1).run r.2 := rfl
  rw [run_left] at hr
  rw [run_right]
  cases hx : x.run a with
  | error d =>
    rw [hx] at hr
    cases hr
  | ok s =>
    rw [hx] at hr
    rw [h a s hx]
    exact hfg s.1 s.2 r hr

/-- A loop over the same list. -/
theorem foldlM {ι : Type} {f g : α → ι → Compile α} {l : List ι}
    (hfg : ∀ i r, (f r i).ExtendedBy (g r i)) (r : α) :
    (l.foldlM f r).ExtendedBy (l.foldlM g r) := by
  induction l generalizing r with
  | nil => exact refl _
  | cons i l ih =>
    rw [List.foldlM_cons, List.foldlM_cons]
    exact (hfg i r).bind ih

end Compile.ExtendedBy

/-! ## Compiling with more tables -/

section Compilation

variable {f g : String → Compile Nat}

/-- Lowering a table is extended if the compilation of its targets is. -/
theorem compileTable_extendedBy (hfg : ∀ target, (f target).ExtendedBy (g target))
    (optimize : Bool) (t : SlotTable) :
    (compileTable optimize f t).ExtendedBy (compileTable optimize g t) := by
  have explicit : ∀ slots, (fillExplicit f t.width slots t.patterns).ExtendedBy
      (fillExplicit g t.width slots t.patterns) := by
    refine fun slots => .foldlM (fun p slots => ?_) slots
    exact (hfg p.target).bind fun _ => .refl _
  have rest : ∀ slots, (fillOtherwise f slots t.otherwise?).ExtendedBy
      (fillOtherwise g slots t.otherwise?) := by
    intro slots
    cases t.otherwise? with
    | none => exact .refl _
    | some target =>
      simp only [fillOtherwise]
      split
      · exact .refl _
      · exact (hfg target).bind fun _ => .refl _
  exact (explicit _).bind fun slots => (rest slots).bind fun _ => .refl _

variable {read read' : List SlotTable}

/-- A name that is found among some tables is compiled in the same way among more. -/
theorem compileName_extendedBy {name : String}
    (hnames : ∀ t, Names read name t → Names read' name t) (path : List String)
    {f g : SlotTable → Compile Nat} (hfg : ∀ t, (f t).ExtendedBy (g t)) :
    (compileName read path name f).ExtendedBy (compileName read' path name g) := by
  refine (Compile.ExtendedBy.refl _).bind fun a => ?_
  cases a.positions.lookup name with
  | some p => exact .refl _
  | none =>
    by_cases hpath : name ∈ path
    · simp only [hpath, if_true]
      exact .of_throw _ _
    · simp only [hpath, if_false]
      cases hcategory : Category.ofName? name with
      | some c => exact .refl _
      | none =>
        cases hfind : read.find? (·.name = name) with
        | none => exact .of_throw _ _
        | some t =>
          rw [(hnames t ⟨hcategory, hfind⟩).find_eq]
          exact (hfg t).bind fun _ => .refl _

/-- A compilation that answers does the same among more tables, where it would give up later.

By induction on the number of tables that are not on the path, which only bounds the recursion: with
none left, a table is a cycle and there is no answer. -/
theorem compile_extendedBy (hnames : ∀ name t, Names read name t → Names read' name t)
    (optimize : Bool) {depth depth' : Nat} (hdepth : depth ≤ depth') (path : List String)
    (name : String) :
    (compile read optimize depth path name).ExtendedBy
      (compile read' optimize depth' path name) := by
  induction depth generalizing depth' path name with
  | zero =>
    cases depth' with
    | zero => exact compileName_extendedBy (hnames name) path fun _ => .refl _
    | succ depth' => exact compileName_extendedBy (hnames name) path fun _ => .of_throw _ _
  | succ depth ih =>
    cases depth' with
    | zero => omega
    | succ depth' =>
      exact compileName_extendedBy (hnames name) path fun t =>
        compileTable_extendedBy (ih (by omega) (name :: path)) optimize t

/-- The compilation of a root is extended by that with more tables. -/
theorem compileRoot_extendedBy (hnames : ∀ name t, Names read name t → Names read' name t)
    (hdefined : ∀ name, isDefined read name → isDefined read' name)
    (hlength : read.length ≤ read'.length) (optimize : Bool) (name : String) :
    (compileRoot read optimize name).ExtendedBy (compileRoot read' optimize name) := by
  unfold compileRoot
  cases hname : isDefined read name with
  | false => exact .of_throw _ _
  | true =>
    rw [hdefined name hname]
    exact compile_extendedBy hnames optimize hlength [] name

/-- Compiles the roots of both instruction sets. -/
def compileRoots (read : List SlotTable) (optimize : Bool) (base capability : String) :
    Compile (Nat × Nat) := do
  let baseRoot ← compileRoot read optimize base
  let capabilityRoot ← compileRoot read optimize capability
  return (baseRoot, capabilityRoot)

/-- The compilation of both roots is extended by that with more tables. -/
theorem compileRoots_extendedBy (hnames : ∀ name t, Names read name t → Names read' name t)
    (hdefined : ∀ name, isDefined read name → isDefined read' name)
    (hlength : read.length ≤ read'.length) (optimize : Bool) (base capability : String) :
    (compileRoots read optimize base capability).ExtendedBy
      (compileRoots read' optimize base capability) := by
  have root := compileRoot_extendedBy hnames hdefined hlength optimize
  exact (root base).bind fun _ => (root capability).bind fun _ => .refl _

end Compilation

/-! ## Reading tables and checking their targets -/

section Reading

/-- Tables are read if they are well formed and have names of their own. -/
theorem readTables_of_readable (before tables : List Table)
    (h : Readable (before ++ tables)) :
    readTables (before.map .ofTable) tables = .ok ((before ++ tables).map .ofTable) := by
  induction tables generalizing before with
  | nil => rw [readTables, List.append_nil]
  | cons t tables ih =>
    have ht : t ∈ before ++ t :: tables := by simp
    obtain ⟨_, valid, -⟩ := t.validate_outcome.exists_ok (h.wellFormed t ht).not_shows
    have names := h.names_nodup
    rw [List.map_append, List.map_cons, List.nodup_append] at names
    have unread : (before.map SlotTable.ofTable).any (·.name = t.name) = false := by
      rw [Bool.eq_false_iff, Ne, any_name_iff]
      exact fun hmem => names.2.2 t.name hmem t.name (.head _) rfl
    have free : Category.ofName? t.name = none := ofName?_eq_none_iff.2 (h.name_ne t ht)
    have rest := ih (before ++ [t]) (by rwa [List.append_assoc])
    rw [List.map_append, List.append_assoc] at rest
    rw [readTables, valid, free, unread]
    exact rest

/-- Targets that are defined pass the check of targets. -/
theorem checkTargets_of_defined {read : List SlotTable} {tables : List Table}
    (h : ∀ t ∈ tables, ∀ e ∈ t.mapping, isDefined read e.2) :
    checkTargets read tables = .ok () := by
  obtain ⟨_, hok, -⟩ := (checkTargets_outcome read tables).exists_ok <| by
    rintro d ⟨t, ht, e, he, hnot, -⟩
    rw [h t ht e he] at hnot
    cases hnot
  exact hok

/-- A builder whose tables can be read, with targets that are defined, compiles its roots. -/
theorem build_eq_run {b : Builder} (base : String) (hread : Readable b.tables)
    (htargets : ∀ t ∈ b.tables, ∀ e ∈ t.mapping, Defined b.tables e.2)
    (hbase : b.root? .a64 = some base) :
    b.build = (do
      let ((baseRoot, capabilityRoot), arena) ← (compileRoots (b.tables.map .ofTable) b.optimize
        base ((b.root? .c64).getD base)).run {}
      return { cells := arena.cells, baseRoot, capabilityRoot }) := by
  have read : readTables [] b.tables = .ok (b.tables.map .ofTable) :=
    readTables_of_readable [] b.tables hread
  have checked : checkTargets (b.tables.map .ofTable) b.tables = .ok () :=
    checkTargets_of_defined fun t ht e he => isDefined_iff.2 (htargets t ht e he)
  simp only [build, read, checked, hbase, bind, Except.bind]
  rfl

end Reading

/-! ## Main result -/

variable {tables tables' more : List Table} {registrations registrations' : List (Isa × String)}
  {optimize : Bool} {g : Graph}

/-- **Only what the roots lead to matters, in no order.** If a graph is built, the same graph, cell
by cell and with the same roots, is built for the tables together with additional ones, all of them
in any order, and for registrations that are in the same order for each instruction set.

**Proof sketch.** The tables of both builders are read, and their targets are defined. A name that
stands for a table stands for the same table among more. The compilation of the roots answers with
the tables alone, so it answers the same with all of them (`compile_extendedBy`): the additional
tables are never looked up, and the bound on the recursion only grows. -/
theorem build_among_others (h : (ofCalls tables registrations optimize).build = .ok g)
    (hmore : Additional tables more) (hperm : (tables ++ more).Perm tables')
    (horder : SameOrder registrations registrations') :
    (ofCalls tables' registrations' optimize).build = .ok g := by
  obtain ⟨haccepts, -⟩ := accepts_and_interprets h
  rw [tables_ofCalls, root?_ofCalls] at haccepts
  obtain ⟨base, hbase⟩ := haccepts.base_root
  have hread : Readable tables := haccepts.toReadable
  have hread' : Readable tables' := (hread.append hmore).perm hperm
  have hsub : ∀ t ∈ tables, t ∈ tables' := fun t ht =>
    hperm.mem_iff.1 (List.mem_append_left more ht)
  have htargets : ∀ t ∈ tables', ∀ e ∈ t.mapping, Defined tables' e.2 := by
    intro t ht e he
    rcases List.mem_append.1 (hperm.mem_iff.2 ht) with ht | ht
    · exact (haccepts.target_defined t ht e he).mono hsub
    · exact (hmore.target_defined t ht e he).mono fun u hu => hperm.mem_iff.1 hu
  have hlength :
      (tables.map SlotTable.ofTable).length ≤ (tables'.map SlotTable.ofTable).length := by
    rw [List.length_map, List.length_map, ← hperm.length_eq, List.length_append]
    exact Nat.le_add_right _ _
  have compiled := compileRoots_extendedBy (fun _ _ => hread.names_mono hread' hsub)
    (fun _ hname => isDefined_iff.2 ((isDefined_iff.1 hname).mono hsub)) hlength optimize base
    ((lastRegistered? registrations .c64).getD base)
  rw [build_eq_run base (by rwa [tables_ofCalls])
    (by rw [tables_ofCalls]; exact haccepts.target_defined) (by rwa [root?_ofCalls]),
    tables_ofCalls, root?_ofCalls] at h
  rw [build_eq_run base (by rwa [tables_ofCalls]) (by rwa [tables_ofCalls])
    (by rwa [root?_ofCalls, ← horder.lastRegistered?_eq]), tables_ofCalls, root?_ofCalls,
    ← horder.lastRegistered?_eq]
  cases hrun : (compileRoots (tables.map .ofTable) (ofCalls tables registrations optimize).optimize
      base ((lastRegistered? registrations .c64).getD base)).run {} with
  | error d =>
    rw [hrun] at h
    cases h
  | ok r =>
    have hrun' : (compileRoots (tables'.map .ofTable)
        (ofCalls tables' registrations' optimize).optimize base
        ((lastRegistered? registrations .c64).getD base)).run {} = .ok r := compiled {} r hrun
    rw [hrun] at h
    rw [hrun']
    exact h

/-- Two tables, one of which leads to itself and the other one nowhere for some words. -/
def looseTables : List Table :=
  [⟨"Loop", [3], [("0", "Loop"), ("1", "Gap")]⟩, ⟨"Gap", [2], [("1", "Top")]⟩]

/-- These tables before and between the other two, which have changed places. -/
def mingledTables : List Table :=
  looseTables.drop 1 ++ twoTables.drop 1 ++ looseTables.take 1 ++ twoTables.take 1

/-- The second root of the capability state is registered before that of the base instruction set,
and the loose tables are among the others. -/
theorem build_among_others_looseTables :
    Additional twoTables looseTables ∧ (twoTables ++ looseTables).Perm mingledTables ∧
      SameOrder [(.c64, "Top"), (.a64, "Top"), (.c64, "Low")]
        [(.c64, "Top"), (.c64, "Low"), (.a64, "Top")] ∧
      ∃ g, (ofCalls twoTables [(.c64, "Top"), (.a64, "Top"), (.c64, "Low")] false).build = .ok g ∧
        (ofCalls mingledTables [(.c64, "Top"), (.c64, "Low"), (.a64, "Top")] false).build =
          .ok g := by
  have fresh : ∀ t ∈ looseTables,
      t.name ∉ twoTables.map (·.name) ∧ Category.ofName? t.name = none := by decide +kernel
  have targets : ∀ t ∈ looseTables, ∀ e ∈ t.mapping,
      isDefined ((twoTables ++ looseTables).map .ofTable) e.2 := by decide +kernel
  have more : Additional twoTables looseTables := {
    valid := by decide +kernel
    names_nodup := by decide +kernel
    name_fresh t ht := ⟨(fresh t ht).1, ofName?_eq_none_iff.1 (fresh t ht).2⟩
    target_defined t ht e he := isDefined_iff.1 (targets t ht e he) }
  have perm : (twoTables ++ looseTables).Perm mingledTables := by decide +kernel
  have order : SameOrder [(.c64, "Top"), (.a64, "Top"), (.c64, "Low")]
      [(.c64, "Top"), (.c64, "Low"), (.a64, "Top")] := by
    intro isa
    cases isa <;> rfl
  have built :
      (ofCalls twoTables [(.c64, "Top"), (.a64, "Top"), (.c64, "Low")] false).build.isOk := by
    decide +kernel
  refine ⟨more, perm, order, ?_⟩
  cases hbuild : (ofCalls twoTables [(.c64, "Top"), (.a64, "Top"), (.c64, "Low")] false).build with
  | ok g => exact ⟨g, rfl, build_among_others hbuild more perm order⟩
  | error d =>
    rw [hbuild] at built
    cases built

end Builder

end AArch64
