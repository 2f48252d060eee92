import AArch64.Graph
import AArch64.Table.Slots

/-!
# Building decode graphs

Compiles tables into a graph. Every table that a root leads to is compiled once, after the tables
and categories that it leads to, and shared by position. A table is on the *path* while what it
leads to is being compiled; meeting a table on the path again is a cycle.

Explicit entries are compiled in order, whether or not their slots are taken already, and a slot
belongs to the first entry that matches it. The catch-all is compiled only if it is left a slot.

## Main definitions

* `AArch64.Builder` — tables, registered roots and whether to simplify.
* `AArch64.Builder.root`, `AArch64.Builder.optimizing` — registration.
* `AArch64.Builder.compile` — compiles what a name stands for.
* `AArch64.Builder.build` — the graph, or the first defect.
-/

set_option autoImplicit false

namespace AArch64

/-- The input of a graph. -/
structure Builder where
  /-- The tables. -/
  tables : List Table
  /-- The root of an instruction set, for those that have one of their own. -/
  roots : List (Isa × String) := []
  /-- Whether tables with one child or two are simplified. -/
  optimize : Bool := true

namespace Builder

/-- Registers the root of an instruction set in place of an earlier one. -/
def root (b : Builder) (isa : Isa) (name : String) : Builder :=
  { b with roots := b.roots.filter (·.1 ≠ isa) ++ [(isa, name)] }

/-- Chooses whether tables are simplified. -/
def optimizing (b : Builder) (optimize : Bool) : Builder :=
  { b with optimize }

/-- The registered root of an instruction set. -/
def root? (b : Builder) (isa : Isa) : Option String :=
  (b.roots.find? (·.1 = isa)).map (·.2)

/-! ## Names -/

/-- Reads tables in order, given those before them: each is valid and has a name of its own. -/
def readTables :
    (read : List SlotTable) → (tables : List Table) → Except Defect (List SlotTable)
  | read, [] => .ok read
  | read, t :: tables => do
    t.validate
    if (Category.ofName? t.name).isSome || read.any (·.name = t.name) then
      .error (.duplicateNode t.name)
    readTables (read ++ [.ofTable t]) tables

/-- Whether a name is that of a category or of a table. -/
def isDefined (tables : List SlotTable) (name : String) : Bool :=
  (Category.ofName? name).isSome || tables.any (·.name = name)

/-- Checks that every target is defined, whether or not a root leads there. -/
def checkTargets (slotTables : List SlotTable) : (tables : List Table) → Except Defect Unit
  | [] => .ok ()
  | t :: tables =>
    match t.mapping.find? fun e => !isDefined slotTables e.2 with
    | some e => .error (.unknownTarget t.name e.2)
    | none => checkTargets slotTables tables

/-! ## Compilation -/

/-- The cells compiled so far, and where the names compiled so far are. -/
structure Arena where
  /-- The cells. -/
  cells : Array Cell := #[]
  /-- The positions of compiled names. -/
  positions : List (String × Nat) := []

/-- A step of the compilation. -/
abbrev Compile := StateT Arena (Except Defect)

/-- Appends a cell and answers its position. -/
def push (c : Cell) : Compile Nat :=
  modifyGet fun a => (a.cells.size, { a with cells := a.cells.push c })

/-- Records where a name was compiled to. -/
def record (name : String) (position : Nat) : Compile Nat :=
  modifyGet fun a => (position, { a with positions := (name, position) :: a.positions })

/-- The slots of a table while it is being filled. -/
abbrev Slots := Array (Option Nat)

/-- Gives a child the listed slots that are still empty. -/
def fill (child : Nat) (slots : Slots) (indices : List Nat) : Slots :=
  indices.foldl (fun slots i => slots.modify i (·.or (some child))) slots

/-- Fills slots entry by entry, compiling each target with `compile`. -/
def fillExplicit (compile : String → Compile Nat) (width : Nat) (slots : Slots)
    (patterns : List SlotPattern) : Compile Slots :=
  patterns.foldlM (fun slots p => do
    let child ← compile p.target
    return fill child slots (Pattern.slots p.mask.toNat p.value.toNat width)) slots

/-- Gives the slots that are still empty to the catch-all, if there are any. -/
def fillOtherwise (compile : String → Compile Nat) (slots : Slots) (otherwise? : Option String) :
    Compile Slots :=
  match otherwise? with
  | none => return slots
  | some target => do
    if slots.toList.all Option.isSome then return slots
    let child ← compile target
    return (slots.toList.map (·.or (some child))).toArray

/-- The children of a table whose slots are all filled, or its first slot that is not. -/
def children (name : String) (slots : Slots) : Except Defect (Array Nat) :=
  match slots.toList.findIdx? Option.isNone with
  | some index => .error (.unmappedSlot name index)
  | none => .ok (slots.toList.filterMap id).toArray

/-- Compiles a table, compiling each target with `compile`. -/
def compileTable (optimize : Bool) (compile : String → Compile Nat) (t : SlotTable) :
    Compile Nat := do
  let slots ← fillExplicit compile t.width (Array.replicate (2 ^ t.width) none) t.patterns
  let slots ← fillOtherwise compile slots t.otherwise?
  match Lowered.ofChildren t.sampledMask (← children t.name slots) optimize with
  | .forward child => return child
  | .cell c => push c

/-- Compiles what a name stands for, unless that is done already; `table` compiles a table that is
not on the path. -/
def compileName (tables : List SlotTable) (path : List String) (name : String)
    (table : SlotTable → Compile Nat) : Compile Nat := do
  match (← get).positions.lookup name with
  | some position => return position
  | none =>
    if name ∈ path then throw (.cycle name)
    match Category.ofName? name, tables.find? (·.name = name) with
    | some c, _ => record name (← push (.leaf c))
    | none, some t => record name (← table t)
    | none, none => throw (.unknownRoot name)

/-- Compiles what a name stands for. `depth` is the number of tables that are not on the path, so
with none left every table is. -/
def compile (tables : List SlotTable) (optimize : Bool) :
    (depth : Nat) → (path : List String) → (name : String) → Compile Nat
  | 0, path, name => compileName tables path name fun t => throw (.cycle t.name)
  | depth + 1, path, name => compileName tables path name fun t =>
    compileTable optimize (compile tables optimize depth (name :: path)) t

/-- Compiles the root of an instruction set. -/
def compileRoot (tables : List SlotTable) (optimize : Bool) (name : String) : Compile Nat := do
  if !isDefined tables name then throw (.unknownRoot name)
  compile tables optimize tables.length [] name

/-- Builds the graph. The capability state starts at the base root unless it has one of its own. The
first defect is reported: tables in order, then targets in order, then the base root, then what
the roots lead to. -/
def build (b : Builder) : Except Defect Graph := do
  let tables ← readTables [] b.tables
  checkTargets tables b.tables
  let some base := b.root? .a64 | .error .missingBaseRoot
  let capability := (b.root? .c64).getD base
  let roots : Compile (Nat × Nat) := do
    let baseRoot ← compileRoot tables b.optimize base
    let capabilityRoot ← compileRoot tables b.optimize capability
    return (baseRoot, capabilityRoot)
  let ((baseRoot, capabilityRoot), arena) ← roots.run {}
  return { cells := arena.cells, baseRoot, capabilityRoot }

end Builder

end AArch64
