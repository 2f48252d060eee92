import AArch64.Proofs.Compilation

/-!
# Compiling the same tables in two ways

A compilation that simplifies tables and one that does not go through the same names in the same
order, and if one of them stops with a defect, so does the other. Where they put a name differs as
soon as one table has been replaced by its child, so the two runs are compared without positions:
by the names that are recorded, and by which slots of a table are filled.

## Main definitions

* `AArch64.Lockstep` — two computations answer together, or fail with the same error.
* `AArch64.Builder.Arena.Alike` — two arenas record the same names.
* `AArch64.Builder.Compile.Agree` — two steps of the compilation from arenas that are alike.

## Main results

* `AArch64.Builder.agree_compileTable` — compiling one table, with and without simplification.
* `AArch64.Builder.agree_compile` — compiling a name.
* `AArch64.Builder.lockstep_build` — building a graph.
-/

set_option autoImplicit false

namespace AArch64

/-! ## Two computations that may fail -/

/-- Both computations answer, and the answers are related, or both fail with the same error. -/
def Lockstep {ε α β : Type} (R : α → β → Prop) : Except ε α → Except ε β → Prop
  | .ok a, .ok b => R a b
  | .error d, .error e => d = e
  | _, _ => False

namespace Lockstep

variable {ε α β γ δ : Type} {R S : α → β → Prop} {T : γ → δ → Prop}
  {x : Except ε α} {y : Except ε β}

/-- The relation of the answers may be weakened. -/
theorem mono (h : Lockstep R x y) (hRS : ∀ a b, x = .ok a → y = .ok b → R a b → S a b) :
    Lockstep S x y := by
  cases x with
  | error d =>
    cases y with
    | error e => exact h
    | ok b => exact h
  | ok a =>
    cases y with
    | error e => exact h
    | ok b => exact hRS a b rfl rfl h

/-- Computations in lockstep go on in lockstep. -/
theorem bind {f : α → Except ε γ} {g : β → Except ε δ} (h : Lockstep R x y)
    (hfg : ∀ a b, R a b → Lockstep T (f a) (g b)) : Lockstep T (x >>= f) (y >>= g) := by
  cases x with
  | error d =>
    cases y with
    | error e => exact h
    | ok b => exact h.elim
  | ok a =>
    cases y with
    | error e => exact h.elim
    | ok b => exact hfg a b h

/-- A step that is the same in both computations. -/
theorem bind_same {f : α → Except ε γ} {g : α → Except ε δ}
    (hfg : ∀ a, Lockstep T (f a) (g a)) : Lockstep T (x >>= f) (x >>= g) := by
  cases x with
  | error d => exact rfl
  | ok a => exact hfg a

end Lockstep

namespace Builder

/-! ## Two compilations -/

/-- Two arenas that record the same names in the same order, the first one with no more cells. -/
structure Arena.Alike (a b : Arena) : Prop where
  names_eq : a.positions.map Prod.fst = b.positions.map Prod.fst
  size_le : a.cells.size ≤ b.cells.size

/-- A position is known exactly for the names in the list. -/
theorem lookup_isSome (positions : List (String × Nat)) (name : String) :
    (positions.lookup name).isSome = (positions.map Prod.fst).contains name := by
  induction positions with
  | nil => rfl
  | cons p positions ih =>
    rw [List.lookup_cons, List.map_cons, List.contains_cons, ← ih]
    cases name == p.1 <;> rfl

/-- A name is recorded in both arenas or in neither. -/
theorem Arena.Alike.lookup_isSome {a b : Arena} (h : a.Alike b) (name : String) :
    (a.positions.lookup name).isSome = (b.positions.lookup name).isSome := by
  rw [Builder.lookup_isSome, Builder.lookup_isSome, h.names_eq]

/-- From arenas that are alike, two steps of the compilation answer alike, with answers that are
related, or fail with the same defect. -/
def Compile.Agree {α β : Type} (R : α → β → Prop) (x : Compile α) (y : Compile β) : Prop :=
  ∀ a b : Arena, a.Alike b →
    Lockstep (fun r s => R r.1 s.1 ∧ r.2.Alike s.2) (x.run a) (y.run b)

/-- Answers of which nothing is known: positions differ between the two compilations. -/
def Whichever (_ _ : Nat) : Prop :=
  True

namespace Compile.Agree

variable {α β γ δ : Type} {R : α → β → Prop} {T : γ → δ → Prop} {x : Compile α} {y : Compile β}

/-- Answers that are related are in agreement. -/
theorem pure {r : α} {s : β} (h : R r s) : Agree R (Pure.pure r) (Pure.pure s) :=
  fun _ _ hab => ⟨h, hab⟩

/-- Faults with the same defect are in agreement. -/
theorem throw (d : Defect) : Agree R (MonadExcept.throw d) (MonadExcept.throw d) :=
  fun _ _ _ => rfl

/-- Arenas that are alike are read alike. -/
theorem get : Agree Arena.Alike (MonadState.get : Compile Arena) MonadState.get :=
  fun _ _ hab => ⟨hab, hab⟩

/-- Steps that agree go on with steps that agree. -/
theorem bind {f : α → Compile γ} {g : β → Compile δ} (h : Agree R x y)
    (hfg : ∀ r s, R r s → Agree T (f r) (g s)) : Agree T (x >>= f) (y >>= g) := by
  intro a b hab
  have run_left : (x >>= f).run a = x.run a >>= fun r => (f r.1).run r.2 := rfl
  have run_right : (y >>= g).run b = y.run b >>= fun s => (g s.1).run s.2 := rfl
  rw [run_left, run_right]
  exact (h a b hab).bind fun r s hrs => hfg r.1 s.1 hrs.1 r.2 s.2 hrs.2

/-- Computations in lockstep are steps that agree. -/
theorem lift {x : Except Defect α} {y : Except Defect β} (h : Lockstep R x y) :
    Agree R (liftM x : Compile α) (liftM y : Compile β) := by
  intro a b hab
  cases x with
  | error d =>
    cases y with
    | error e => exact h
    | ok s => exact h
  | ok r =>
    cases y with
    | error e => exact h
    | ok s => exact ⟨h, hab⟩

/-- A loop over the same list. -/
theorem foldlM {ι : Type} {f : α → ι → Compile α} {g : β → ι → Compile β} {l : List ι}
    (hfg : ∀ i r s, R r s → Agree R (f r i) (g s i)) {r : α} {s : β} (h : R r s) :
    Agree R (l.foldlM f r) (l.foldlM g s) := by
  induction l generalizing r s with
  | nil => exact pure h
  | cons i l ih =>
    rw [List.foldlM_cons, List.foldlM_cons]
    exact (hfg i r s h).bind fun r' s' h' => ih h'

/-- Whichever cells are pushed, the arenas stay alike. -/
theorem push (c d : Cell) : Agree Whichever (Builder.push c) (Builder.push d) := by
  intro a b hab
  refine ⟨trivial, hab.names_eq, ?_⟩
  show (a.cells.push c).size ≤ (b.cells.push d).size
  rw [Array.size_push, Array.size_push]
  exact Nat.succ_le_succ hab.size_le

/-- Whichever positions are recorded, the arenas stay alike. -/
theorem record (name : String) (p q : Nat) :
    Agree Whichever (Builder.record name p) (Builder.record name q) := by
  intro a b hab
  refine ⟨trivial, ?_, hab.size_le⟩
  show name :: a.positions.map Prod.fst = name :: b.positions.map Prod.fst
  rw [hab.names_eq]

end Compile.Agree

open Compile

/-! ## Filled slots -/

/-- Which slots of a table are filled. -/
def filled (slots : Slots) : List Bool :=
  slots.toList.map Option.isSome

/-- Whether one slot is filled. -/
theorem getElem?_filled (slots : Slots) (i : Nat) :
    (filled slots)[i]? = slots[i]?.map Option.isSome := by
  rw [filled, List.getElem?_map, Array.getElem?_toList]

/-- Which slots are filled after an entry depends on which were before, not on their children. -/
theorem filled_fill (child : Nat) (slots : Slots) (indices : List Nat) :
    filled (fill child slots indices) =
      (filled slots).mapIdx fun i full => full || decide (i ∈ indices) := by
  refine List.ext_getElem? fun i => ?_
  rw [getElem?_filled, getElem?_fill, List.getElem?_mapIdx, getElem?_filled]
  cases slots[i]? with
  | none => rfl
  | some s =>
    by_cases hi : i ∈ indices
    · cases s <;> simp [hi]
    · simp [hi]

/-- When the rest is filled, every slot is. -/
theorem filled_fillRest (child : Nat) (slots : Slots) :
    filled (slots.toList.map (·.or (some child))).toArray = (filled slots).map fun _ => true := by
  rw [filled, filled, List.map_map, List.map_map]
  refine List.map_congr_left fun s _ => ?_
  cases s <;> rfl

/-- Whether all slots are filled depends on which ones are. -/
theorem all_isSome_eq (slots : Slots) :
    slots.toList.all Option.isSome = (filled slots).all id := by
  rw [filled, List.all_map]
  rfl

/-- So does which slot is the first that is not filled. -/
theorem findIdx?_isNone_eq (slots : Slots) :
    slots.toList.findIdx? Option.isNone = (filled slots).findIdx? (!·) := by
  rw [filled, List.findIdx?_map]
  congr 1
  funext s
  cases s <;> rfl

/-- The same slots are filled. -/
def SameFilled (s t : Slots) : Prop :=
  filled s = filled t

/-! ## Compiling tables -/

section Table

variable {f g : String → Compile Nat}

/-- Explicit patterns fill the same slots in both compilations. -/
theorem agree_fillExplicit (hfg : ∀ target, Agree Whichever (f target) (g target)) (width : Nat)
    (patterns : List SlotPattern) {s t : Slots} (h : SameFilled s t) :
    Agree SameFilled (fillExplicit f width s patterns) (fillExplicit g width t patterns) := by
  refine Agree.foldlM (fun p s t h => ?_) h
  refine (hfg p.target).bind fun child child' _ => Agree.pure ?_
  rw [SameFilled, filled_fill, filled_fill, h]

/-- So does the target of other words. -/
theorem agree_fillOtherwise (hfg : ∀ target, Agree Whichever (f target) (g target))
    (otherwise? : Option String) {s t : Slots} (h : SameFilled s t) :
    Agree SameFilled (fillOtherwise f s otherwise?) (fillOtherwise g t otherwise?) := by
  cases otherwise? with
  | none => exact Agree.pure h
  | some target =>
    simp only [fillOtherwise]
    rw [all_isSome_eq, all_isSome_eq, h]
    split
    · exact Agree.pure h
    · refine (hfg target).bind fun child child' _ => Agree.pure ?_
      rw [SameFilled, filled_fillRest, filled_fillRest, h]

/-- The first slot without a child is the same. -/
theorem lockstep_children (name : String) {s t : Slots} (h : SameFilled s t) :
    Lockstep (fun _ _ => True) (children name s) (children name t) := by
  rw [children, children, findIdx?_isNone_eq, findIdx?_isNone_eq, h]
  cases (filled t).findIdx? (!·) with
  | some index => exact rfl
  | none => exact trivial

/-- What a table is lowered to takes one cell without simplification, and at most one with it. -/
theorem agree_compileTable (hfg : ∀ target, Agree Whichever (f target) (g target))
    (t : SlotTable) : Agree Whichever (compileTable true f t) (compileTable false g t) := by
  refine (agree_fillExplicit hfg t.width t.patterns rfl).bind fun s s' hs => ?_
  refine (agree_fillOtherwise hfg t.otherwise? hs).bind fun r r' hr => ?_
  refine (Agree.lift (lockstep_children t.name hr)).bind fun cs ds _ => ?_
  cases Lowered.ofChildren t.sampledMask cs true with
  | cell c => exact Agree.push c _
  | forward child =>
    intro a b hab
    refine ⟨trivial, hab.names_eq, ?_⟩
    show a.cells.size ≤ (b.cells.push _).size
    rw [Array.size_push]
    exact Nat.le_succ_of_le hab.size_le

end Table

/-! ## Compiling names -/

variable {tables : List SlotTable}

/-- A name is compiled in both runs or in neither. -/
theorem agree_compileName (path : List String) (name : String) {f g : SlotTable → Compile Nat}
    (hfg : ∀ t, Agree Whichever (f t) (g t)) :
    Agree Whichever (compileName tables path name f) (compileName tables path name g) := by
  refine Agree.get.bind fun r s hrs => ?_
  have known := hrs.lookup_isSome name
  cases hr : r.positions.lookup name with
  | some p =>
    cases hs : s.positions.lookup name with
    | some q => exact Agree.pure trivial
    | none => simp [hr, hs] at known
  | none =>
    cases hs : s.positions.lookup name with
    | some q => simp [hr, hs] at known
    | none =>
      by_cases hpath : name ∈ path
      · simp only [hpath, if_true]
        exact Agree.throw _
      · simp only [hpath, if_false]
        cases Category.ofName? name with
        | some c => exact (Agree.push _ _).bind fun p q _ => Agree.record name p q
        | none =>
          cases tables.find? (·.name = name) with
          | some t => exact (hfg t).bind fun p q _ => Agree.record name p q
          | none => exact Agree.throw _

/-- The compilation of a name records the same names with and without simplification, or fails with
the same defect. By induction on the number of tables that are not on the path. -/
theorem agree_compile (depth : Nat) (path : List String) (name : String) :
    Agree Whichever (compile tables true depth path name)
      (compile tables false depth path name) := by
  induction depth generalizing path name with
  | zero => exact agree_compileName path name fun t => Agree.throw (.cycle t.name)
  | succ depth ih =>
    exact agree_compileName path name fun t => agree_compileTable (ih (name :: path)) t

/-- The two compilations of a root agree. -/
theorem agree_compileRoot (tables : List SlotTable) (name : String) :
    Agree Whichever (compileRoot tables true name) (compileRoot tables false name) := by
  unfold compileRoot
  cases isDefined tables name with
  | false => exact Agree.throw _
  | true => exact agree_compile tables.length [] name

/-! ## Building graphs -/

/-- The root of a builder does not depend on whether it optimizes. -/
theorem root?_optimizing (b : Builder) (optimize : Bool) :
    (b.optimizing optimize).root? = b.root? :=
  rfl

/-- Building with and without simplification fails with the same defect, or gives two graphs, the
first of which has no more cells.

**Proof sketch.** Reading the tables and checking their targets is the same in both. The roots are
compiled from the same empty arena, step by step in agreement (`agree_compile`): that a table is
simplified changes where names are, but neither which names are recorded nor which slots are filled,
and these decide what is compiled next and what fails. -/
theorem lockstep_build (b : Builder) :
    Lockstep (fun g h => g.size ≤ h.size) (b.optimizing true).build (b.optimizing false).build := by
  refine Lockstep.bind_same fun tables => ?_
  refine Lockstep.bind_same fun _ => ?_
  simp only [root?_optimizing]
  cases b.root? .a64 with
  | none => exact rfl
  | some base =>
    have roots := (agree_compileRoot tables base).bind fun p q _ =>
      (agree_compileRoot tables ((b.root? .c64).getD base)).bind fun p' q' _ =>
        Agree.pure (R := fun (_ _ : Nat × Nat) => True) (r := (p, p')) (s := (q, q')) trivial
    exact (roots {} {} ⟨rfl, Nat.le_refl _⟩).bind fun r s hrs => hrs.2.size_le

end Builder

end AArch64
