import AArch64.Graph
import Mathlib.Data.List.Basic
import Mathlib.Tactic.Common

/-!
# Walks through the cells of a graph

`Graph.walk` counts its steps. Here a walk is a relation without a count, in which every read is
checked: each cell that is visited exists, its sampler reads inside the word, and the slot has a
child. A walk in this sense ends, and no check of it fails. Where cells refer to earlier cells only,
the two agree.

## Main definitions

* `AArch64.Cell.Sends` — the cell that a cell sends a word to, all checks passed.
* `AArch64.Graph.Ends` — the walk of a word from a position ends at a category.
* `AArch64.Graph.Ordered` — cells refer to earlier cells only.

## Main results

* `AArch64.Graph.walk_eq_some_of_ends` — a walk that ends is found within as many steps as there are
  cells up to its start.
* `AArch64.Graph.Ends.push` — appending a cell keeps walks.
-/

set_option autoImplicit false

namespace AArch64

/-- A cell sends a word to the cell at a position, without a failed check. -/
inductive Cell.Sends (w : Word) : Cell → Nat → Prop
  /-- The sampler reads the slot, and the slot has the child. -/
  | table {sampler : Sampler} {children : Array Nat} {slot child : Nat}
      (hread : sampler.read w = .ok slot) (hchild : children[slot]? = some child) :
      Sends w (.table sampler children) child
  /-- The masked bits have the value. -/
  | matched {mask value : Word} {matched unmatched : Nat} (h : w &&& mask = value) :
      Sends w (.test mask value matched unmatched) matched
  /-- The masked bits do not have the value. -/
  | unmatched {mask value : Word} {matched unmatched : Nat} (h : w &&& mask ≠ value) :
      Sends w (.test mask value matched unmatched) unmatched

/-- A checked read is the read. -/
theorem Sampler.sample_eq_of_read {s : Sampler} {w : Word} {i : Nat} (h : s.read w = .ok i) :
    s.sample w = i := by
  cases s with
  | bit b => by_cases hb : b < 32 <;> simp_all [Sampler.read, Trap.demand, pure, Except.pure,
      bind, Except.bind]
  | field shift mask => by_cases hb : shift < 32 <;> simp_all [Sampler.read, Trap.fits, pure,
      Except.pure, bind, Except.bind]
  | gather mask => simpa [Sampler.read, pure, Except.pure, bind, Except.bind] using h

/-- Where a cell sends a word is where the walk goes next. -/
theorem Cell.Sends.next_eq {w : Word} {cell : Cell} {j : Nat} (h : cell.Sends w j) :
    cell.next w = some j := by
  cases h with
  | table hread hchild => rw [Cell.next, Sampler.sample_eq_of_read hread, hchild]
  | matched h => rw [Cell.next, if_pos h]
  | unmatched h => rw [Cell.next, if_neg h]

/-- A word is sent to a successor. -/
theorem Cell.Sends.mem_successors {w : Word} {cell : Cell} {j : Nat} (h : cell.Sends w j) :
    j ∈ cell.successors := by
  cases h with
  | table hread hchild =>
    rw [← Array.getElem?_toList] at hchild
    exact List.mem_of_getElem? hchild
  | matched h => simp [Cell.successors]
  | unmatched h => simp [Cell.successors]

namespace Graph

/-- The walk of a word from a position ends at a category, without a failed check. -/
inductive Ends (cells : Array Cell) (w : Word) : Nat → Category → Prop
  /-- The position is that of a leaf. -/
  | leaf {i : Nat} {c : Category} (h : cells[i]? = some (.leaf c)) : Ends cells w i c
  /-- The walk goes on from the cell that the word is sent to. -/
  | step {i j : Nat} {cell : Cell} {c : Category} (h : cells[i]? = some cell)
      (hs : cell.Sends w j) (hj : Ends cells w j c) : Ends cells w i c

/-- Every cell refers to earlier cells only. -/
def Ordered (cells : Array Cell) : Prop :=
  ∀ (i : Nat) (cell : Cell), cells[i]? = some cell → ∀ j ∈ cell.successors, j < i

/-- Without cells there is no order to break. -/
theorem ordered_empty : Ordered #[] := by
  intro i cell h
  simp at h

/-- Appending a cell that refers to cells that are there keeps the order. -/
theorem Ordered.push {cells : Array Cell} (h : Ordered cells) {cell : Cell}
    (hcell : ∀ j ∈ cell.successors, j < cells.size) : Ordered (cells.push cell) := by
  intro i c hi
  rw [Array.getElem?_push] at hi
  split at hi
  · next h' =>
    obtain rfl := Option.some.inj hi
    rwa [h']
  · exact h i c hi

/-- Appending a cell keeps walks. -/
theorem Ends.push {cells : Array Cell} {w : Word} {i : Nat} {c : Category}
    (h : Ends cells w i c) (cell : Cell) : Ends (cells.push cell) w i c := by
  have kept : ∀ {i : Nat} {c : Cell}, cells[i]? = some c → (cells.push cell)[i]? = some c := by
    intro i c hi
    have := (Array.getElem?_eq_some_iff.1 hi).1
    rw [Array.getElem?_push, if_neg (by omega), hi]
  induction h with
  | leaf h => exact .leaf (kept h)
  | step h hs _ ih => exact .step (kept h) hs ih

/-- A walk ends at one category. -/
theorem Ends.unique {cells : Array Cell} {w : Word} {i : Nat} {c d : Category}
    (hc : Ends cells w i c) (hd : Ends cells w i d) : c = d := by
  induction hc with
  | leaf h =>
    cases hd with
    | leaf h' => simpa using h.symm.trans h'
    | step h' hs _ =>
      obtain rfl : _ = _ := Option.some.inj (h.symm.trans h')
      nomatch hs
  | step h hs _ ih =>
    cases hd with
    | leaf h' =>
      obtain rfl : _ = _ := Option.some.inj (h.symm.trans h')
      nomatch hs
    | step h' hs' hj' =>
      obtain rfl : _ = _ := Option.some.inj (h.symm.trans h')
      obtain rfl : _ = _ := Option.some.inj (hs.next_eq.symm.trans hs'.next_eq)
      exact ih hj'

/-- A walk that ends is found when steps are counted: it visits ever smaller positions. -/
theorem walk_eq_some_of_ends {g : Graph} (hg : Ordered g.cells) {w : Word} {i : Nat}
    {c : Category} (h : Ends g.cells w i c) {steps : Nat} (hsteps : i < steps) :
    g.walk w steps i = some c := by
  induction h generalizing steps with
  | leaf h =>
    obtain ⟨n, rfl⟩ : ∃ n, steps = n + 1 := ⟨steps - 1, by omega⟩
    simp [walk, h]
  | @step i j cell c h hs hj ih =>
    obtain ⟨n, rfl⟩ : ∃ n, steps = n + 1 := ⟨steps - 1, by omega⟩
    have hlt := hg i cell h j hs.mem_successors
    have next := hs.next_eq
    cases cell with
    | leaf c => nomatch hs
    | table sampler children => simpa only [walk, h, next] using ih (by omega)
    | test mask value matched unmatched => simpa only [walk, h, next] using ih (by omega)

end Graph

end AArch64
