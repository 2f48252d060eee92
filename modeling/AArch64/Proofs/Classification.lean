import AArch64.EncodingIndex
import AArch64.Proofs.Building

/-!
# Classification by the encoding index

The tables of the encoding index are accepted, so their graph classifies a word as the tables lead
it. The way through the tables is followed one table at a time: a table looks at some bits of the
word only, and its target depends on their values alone.

## Main definitions

* `AArch64.Table.pick?` — the target of a table for given values of its sampled bits.
* `AArch64.EncodingIndex.name` — where an instruction set starts.

## Main results

* `AArch64.EncodingIndex.build_builder` — the graph is built.
* `AArch64.EncodingIndex.classify_eq_iff` — the graph classifies a word as the tables lead it.
-/

set_option autoImplicit false

namespace AArch64

/-! ## One table at a time -/

namespace Table

/-- The target of a table for the words whose sampled bits have the given values. -/
def pick? (t : Table) (values : List Bool) : Option String :=
  match t.explicit.find? fun e =>
    (values.zip e.1.toList).all fun (v, c) => c = 'x' ∨ c = if v then '1' else '0' with
  | some e => some e.2
  | none => t.otherwise?

/-- The target of a word in a table, by the bits that the table samples. -/
theorem target?_eq_pick? (t : Table) (w : Word) : t.target? w = t.pick? (t.bits.map w.getLsbD) := by
  have covers_eq : (fun e : String × String => covers t.bits e.1 w) = fun e =>
      ((t.bits.map w.getLsbD).zip e.1.toList).all
        fun (v, c) => c = 'x' ∨ c = if v then '1' else '0' := by
    funext e
    rw [covers, List.zip_map_left, List.all_map]
    rfl
  exact congrArg (fun covers => match t.explicit.find? covers with
    | some e => some e.2
    | none => t.otherwise?) covers_eq

end Table

/-- A table leads on to its target for the values of its sampled bits. -/
theorem Tables.Leads.pick {tables : List Table} {w : Word} {target : String} {c : Category}
    {t : Table} (ht : t ∈ tables) {values : List Bool} (hvalues : t.bits.map w.getLsbD = values)
    (hpick : t.pick? values = some target) (h : Leads tables w target c) :
    Leads tables w t.name c := by
  refine .table ht ?_ h
  rw [Table.target?_eq_pick?, hvalues, hpick]

namespace EncodingIndex

/-! ## The graph -/

/-- The name that an instruction set starts at. -/
def name : Isa → String
  | .a64 => rootName
  | .c64 => capabilityRootName

/-- The names that the instruction sets start at. -/
theorem start?_builder (isa : Isa) : Tables.start? builder.root? isa = some (name isa) := by
  cases isa <;> decide

/-- The tables of the encoding index have no defect. -/
theorem isOk_build_builder : builder.build.isOk := by
  decide +kernel

/-- The graph of the encoding index is built from its tables. -/
theorem build_builder : builder.build = .ok graph := by
  have ok := isOk_build_builder
  unfold graph
  generalize builder.build = built at ok ⊢
  cases built with
  | ok g => rfl
  | error d => cases ok

/-- The graph classifies a word as the tables lead it. -/
theorem classify_eq_iff {w : Word} {isa : Isa} {c : Category} :
    graph.classify w isa = c ↔ Tables.Leads tables w (name isa) c := by
  obtain ⟨haccepts, hinterprets⟩ := Builder.accepts_and_interprets build_builder
  obtain ⟨root, d, hroot, hleads, -, -, found⟩ := hinterprets.classify w isa
  rw [start?_builder] at hroot
  obtain rfl := Option.some.inj hroot
  rw [found]
  constructor
  · rintro rfl
    exact hleads
  · exact fun hc => haccepts.toReadable.leads_unique hleads hc

/-! ## Regions of the index -/

section Regions

variable {w : Word} {isa : Isa} {target : String} {c : Category}

/-- Data processing with an immediate that is no address leads on alike in both instruction sets. -/
theorem leads_immediate {x a b : Bool} (hne : x || a)
    (htop : [28, 27, 26, 25].map w.getLsbD = [true, false, false, x])
    (hop : [25, 24, 23].map w.getLsbD = [x, a, b])
    (hpick : dataProcessingImmediate.pick? [x, a, b] = some target)
    (h : Tables.Leads tables w target c) : Tables.Leads tables w (name isa) c := by
  have top : ∀ x, root.pick? [true, false, false, x] = some dataProcessingImmediate.name := by
    decide
  have topC64 : ∀ x,
      capabilityRoot.pick? [true, false, false, x] = some dataProcessingImmediateC64.name := by
    decide
  have alike : ∀ x a b, (x || a) →
      dataProcessingImmediateC64.pick? [x, a, b] = dataProcessingImmediate.pick? [x, a, b] := by
    decide
  cases isa with
  | a64 =>
    refine .pick (t := root) (by simp [tables]) htop (top x) ?_
    exact .pick (t := dataProcessingImmediate) (by simp [tables]) hop hpick h
  | c64 =>
    refine .pick (t := capabilityRoot) (by simp [tables]) htop (topC64 x) ?_
    exact .pick (t := dataProcessingImmediateC64) (by simp [tables]) hop
      ((alike x a b hne).trans hpick) h

/-- Data processing with registers leads on alike in both instruction sets. -/
theorem leads_register {x : Bool} {values : List Bool}
    (htop : [28, 27, 26, 25].map w.getLsbD = [x, true, false, true])
    (hop : dataProcessingRegister.bits.map w.getLsbD = values)
    (hpick : dataProcessingRegister.pick? values = some target)
    (h : Tables.Leads tables w target c) : Tables.Leads tables w (name isa) c := by
  have top : ∀ x, root.pick? [x, true, false, true] = some dataProcessingRegister.name := by
    decide
  have topC64 : ∀ x,
      capabilityRoot.pick? [x, true, false, true] = some dataProcessingRegister.name := by
    decide
  have next : Tables.Leads tables w dataProcessingRegister.name c :=
    .pick (by simp [tables]) hop hpick h
  cases isa with
  | a64 => exact .pick (t := root) (by simp [tables]) htop (top x) next
  | c64 => exact .pick (t := capabilityRoot) (by simp [tables]) htop (topC64 x) next

/-- Loads and stores lead on alike in both instruction sets. -/
theorem leads_loadsStores {x y : Bool} {values : List Bool}
    (htop : [28, 27, 26, 25].map w.getLsbD = [x, true, y, false])
    (hop : loadsStores.bits.map w.getLsbD = values)
    (hpick : loadsStores.pick? values = some target)
    (h : Tables.Leads tables w target c) : Tables.Leads tables w (name isa) c := by
  have top : ∀ x y, root.pick? [x, true, y, false] = some loadsStores.name := by
    decide
  have topC64 : ∀ x y, capabilityRoot.pick? [x, true, y, false] = some loadsStores.name := by
    decide
  have next : Tables.Leads tables w loadsStores.name c := .pick (by simp [tables]) hop hpick h
  cases isa with
  | a64 => exact .pick (t := root) (by simp [tables]) htop (top x y) next
  | c64 => exact .pick (t := capabilityRoot) (by simp [tables]) htop (topC64 x y) next

end Regions

end EncodingIndex

end AArch64
