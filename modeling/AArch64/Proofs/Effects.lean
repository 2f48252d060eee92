import AArch64.Proofs.FormViews

/-!
# What instructions write

The registers that an instruction writes, and whether it writes the flags, are read off the decoded
word. For the word of a form they are the destinations of the form. Writing the zero register is
writing no register.

## Main definitions

* `AArch64.Effect`, `AArch64.Instruction.effect?` — what a decoded instruction writes.
* `AArch64.Instruction.WritesWithin` — an instruction writes only what is allowed.
* `AArch64.Form.written`, `AArch64.Form.setsFlags` — what a form writes.

## Main results

* `AArch64.Form.writes_word` — the word of a form writes what the form writes.
-/

set_option autoImplicit false

namespace AArch64

/-- What an instruction writes besides memory and the program counter. -/
structure Effect where
  /-- The registers, in their 64-bit view. -/
  registers : List Register
  /-- Whether the flags are written. -/
  flags : Bool
  deriving DecidableEq

namespace Instruction

/-- The register of a field in which 31 is the zero register. -/
def generalOrZero (n : Nat) : List Register :=
  if n = 31 then [] else [{ code := BitVec.ofNat 8 n, view := .x }]

/-- The register of a field in which 31 is the stack pointer. -/
def generalOrStack (n : Nat) : List Register :=
  [if n = 31 then .stack .x else { code := BitVec.ofNat 8 n, view := .x }]

/-- Whether a logical operation sets the flags. -/
def isAnds (i : Instruction) : Bool :=
  i.bits 29 2 = LogicalOp.ands.field

/-- What an instruction writes, for the categories of the words that can be emitted. A linking
branch writes register 30. A word that its instruction set does not allocate does nothing. -/
def effect? (i : Instruction) : Option Effect :=
  match i.category with
  | .addSubImmediate | .addSubExtended =>
    some ⟨if i.setsFlags then generalOrZero i.rd else generalOrStack i.rd, i.setsFlags⟩
  | .addSubShifted => some ⟨generalOrZero i.rd, i.setsFlags⟩
  | .logicalImmediate =>
    some ⟨if i.isAnds then generalOrZero i.rd else generalOrStack i.rd, i.isAnds⟩
  | .logicalShifted => some ⟨generalOrZero i.rd, i.isAnds⟩
  | .moveWide | .bitfield | .extract => some ⟨generalOrZero i.rd, false⟩
  | .loadStoreUnsignedOffset | .loadStoreUnscaledOffset | .loadStoreRegisterOffset =>
    some ⟨if i.isLoad then generalOrZero i.rt else [], false⟩
  | .loadStorePreIndex | .loadStorePostIndex =>
    some ⟨(if i.isLoad then generalOrZero i.rt else []) ++ generalOrStack i.rn, false⟩
  | .unconditionalBranchRegister | .capabilityBranchRegister | .capabilityBranchMemory =>
    some ⟨if i.isLink then generalOrZero 30 else [], false⟩
  | .capabilityArithmetic => some ⟨generalOrStack i.rd, false⟩
  | .unallocated => some ⟨[], false⟩
  | _ => none

/-- An instruction writes only registers that are allowed, and the flags only if allowed. -/
def WritesWithin (i : Instruction) (allowed : Register → Prop) (flags : Bool) : Prop :=
  ∃ e, i.effect? = some e ∧ (∀ r ∈ e.registers, allowed r) ∧ (e.flags → flags)

variable {d r : Register}

/-- The register of a field is the one that the field was filled with. -/
theorem code_eq_of_mem_generalOrZero (h : r ∈ generalOrZero d.number) :
    d.isZero = false ∧ d.code = r.code := by
  rw [generalOrZero, Register.number] at h
  cases hd : d.isGeneral with
  | false => simp [hd] at h
  | true =>
    have lt := d.isGeneral_iff.1 hd
    rw [hd, if_pos rfl, if_neg (by omega), List.mem_singleton] at h
    refine ⟨d.isZero_of_isGeneral hd, ?_⟩
    rw [h]
    simp

/-- So is the one of a field in which the number 31 is the stack pointer. -/
theorem code_eq_of_mem_generalOrStack (hd : d.IsBuilt) (hzero : d.isZero = false)
    (h : r ∈ generalOrStack d.number) : d.code = r.code := by
  rw [generalOrStack, Register.number, List.mem_singleton] at h
  cases hg : d.isGeneral with
  | false =>
    rw [hg] at h
    have stack : d.isStack = true := by
      rcases hd.code_cases with h' | h' | h'
      · rw [hg] at h'
        cases h'
      · rw [hzero] at h'
        cases h'
      · exact h'
    rw [h]
    exact of_decide_eq_true stack
  | true =>
    have lt := d.isGeneral_iff.1 hg
    rw [hg, if_pos rfl, if_neg (by omega)] at h
    rw [h]
    simp

end Instruction

namespace Form

/-- The destinations of a form. -/
def written : Form → List Register
  | .addSubImmediate _ rd _ _ _ | .addSubShifted _ rd _ _ _ _ | .addSubExtended _ rd _ _ _ _
  | .logicalImmediate _ rd _ _ | .logicalShifted _ _ rd _ _ _ _ | .moveWide _ rd _ _
  | .bitfield _ rd _ _ _ | .extract rd _ _ _ => [rd]
  | .loadStoreUnsigned op rt _ _ | .loadStoreRegister op rt _ _ _ _ =>
    if op.isLoad then [rt] else []
  | .loadStoreIndexed op rt base _ mode =>
    (if op.isLoad then [rt] else []) ++ if mode = .unscaled then [] else [base]
  | .branchRegister op _ => if op = .blr then [.link .x] else []
  | .capabilityAddImmediate _ cd _ _ _ | .capabilityAddExtended cd _ _ _ _ => [cd]
  | .capabilityBranch _ _ link => if link then [.link .c] else []

/-- Whether a form writes the flags. -/
def setsFlags : Form → Bool
  | .addSubImmediate op _ _ _ _ | .addSubShifted op _ _ _ _ _ | .addSubExtended op _ _ _ _ _ =>
    op.setsFlags
  | .logicalImmediate op _ _ _ | .logicalShifted op _ _ _ _ _ _ => op = .ands
  | _ => false

/-- An instruction writes only what a form writes: destinations other than the zero register, and
the flags only if the form writes them. -/
def Writes (f : Form) (i : Instruction) : Prop :=
  i.WritesWithin (fun r => ∃ d ∈ f.written, d.isZero = false ∧ d.code = r.code) f.setsFlags

/-! ### What the word of a form writes -/

section Rules

variable {f : Form} {i : Instruction}

/-- An instruction that writes a field in which 31 is the zero register. -/
theorem writes_of_generalOrZero (d : Register) (flags : Bool)
    (heffect : i.effect? = some ⟨Instruction.generalOrZero d.number, flags⟩)
    (hd : d ∈ f.written) (hflags : flags → f.setsFlags) : f.Writes i :=
  ⟨_, heffect, fun _ hr => ⟨d, hd, Instruction.code_eq_of_mem_generalOrZero hr⟩, hflags⟩

/-- An instruction that writes a field in which 31 is the zero register if it sets the flags, and
the stack pointer otherwise. -/
theorem writes_of_destination {d : Register} {flags : Bool} (hbuilt : d.IsBuilt)
    (hzero : flags = false → d.isZero = false)
    (heffect : i.effect? = some ⟨if flags then Instruction.generalOrZero d.number
      else Instruction.generalOrStack d.number, flags⟩) (hd : d ∈ f.written)
    (hflags : flags → f.setsFlags) : f.Writes i := by
  refine ⟨_, heffect, fun r hr => ⟨d, hd, ?_⟩, hflags⟩
  cases flags with
  | true => exact Instruction.code_eq_of_mem_generalOrZero hr
  | false => exact ⟨hzero rfl, Instruction.code_eq_of_mem_generalOrStack hbuilt (hzero rfl) hr⟩

/-- A destination that field 31 is the stack pointer for, unless flags are set, is not the zero
register then. -/
theorem isZero_of_checkDestination {d : Register} {flags : Bool} {ifStack ifZero : Rejection}
    (h : checkDestination flags d ifStack ifZero = .ok ()) (hflags : flags = false) :
    d.isZero = false := by
  rw [checkDestination, hflags, if_neg Bool.false_ne_true, require_eq_ok_iff] at h
  simpa using h

/-- The transfer register is written by a load. -/
theorem exists_of_mem_load {op : LoadStoreOp} {rt r : Register}
    (h : r ∈ if op.isLoad then Instruction.generalOrZero rt.number else []) :
    ∃ d ∈ if op.isLoad then [rt] else [], d.isZero = false ∧ d.code = r.code := by
  cases hload : op.isLoad with
  | true =>
    rw [hload] at h
    exact ⟨rt, List.mem_singleton_self rt, Instruction.code_eq_of_mem_generalOrZero h⟩
  | false =>
    rw [hload] at h
    cases h

/-- A branch that writes the link register if it links. -/
theorem writes_of_link
    (heffect : i.effect? = some ⟨if i.isLink then Instruction.generalOrZero 30 else [], false⟩)
    (hlink : i.isLink → ∃ d ∈ f.written, d.isZero = false ∧ d.code = 30) : f.Writes i := by
  refine ⟨_, heffect, fun r hr => ?_, fun h => absurd h Bool.false_ne_true⟩
  cases h : i.isLink with
  | true =>
    rw [h] at hr
    obtain rfl : r = ⟨30, .x⟩ := List.mem_singleton.1 hr
    exact hlink h
  | false =>
    rw [h] at hr
    cases hr

/-- The operation that sets flags is told from the others by its field. -/
theorem isAnds_of_bits {op : LogicalOp} (h : i.bits 29 2 = op.field) :
    i.isAnds = decide (op = .ands) := by
  rw [Instruction.isAnds, h]
  cases op <;> rfl

end Rules

section Decoded

variable {isa : Isa} {position : Nat}

/-- A load or store that changes its base writes the base besides. -/
theorem writes_loadStoreIndexed {op : LoadStoreOp} {rt base : Register} {offset : Int}
    {mode : IndexMode} (h : (loadStoreIndexed op rt base offset mode).check = .ok ())
    (hbuilt : ∀ r ∈ (loadStoreIndexed op rt base offset mode).registers, r.IsBuilt) :
    (loadStoreIndexed op rt base offset mode).Writes
      ((loadStoreIndexed op rt base offset mode).decoded isa position) := by
  obtain ⟨field, baseField, -, load, -⟩ := reads_decoded h hbuilt isa position
  simp only [check, bind_eq_ok_iff, require_eq_ok_iff, Bool.not_eq_true'] at h
  have zero : base.isZero = false := h.2.2.1
  have effect : ((loadStoreIndexed op rt base offset mode).decoded isa position).effect? =
      some ⟨(if op.isLoad then Instruction.generalOrZero rt.number else []) ++
        if mode = .unscaled then [] else Instruction.generalOrStack base.number, false⟩ := by
    rw [← field, ← baseField, ← load]
    cases mode with
    | unscaled => exact congrArg (fun rs => some (Effect.mk rs false)) (List.append_nil _).symm
    | _ => rfl
  refine ⟨_, effect, fun r hr => ?_, fun h => absurd h Bool.false_ne_true⟩
  rcases List.mem_append.1 hr with hr | hr
  · obtain ⟨d, hd, hr⟩ := exists_of_mem_load hr
    exact ⟨d, List.mem_append_left _ hd, hr⟩
  · by_cases hmode : mode = .unscaled
    · rw [if_pos hmode] at hr
      cases hr
    · rw [if_neg hmode] at hr
      refine ⟨base, List.mem_append_right _ ?_, zero,
        Instruction.code_eq_of_mem_generalOrStack (hbuilt base (.tail _ (.head _))) zero hr⟩
      rw [if_neg hmode]
      exact List.mem_singleton_self base

/-- What the word of a form that passes the checks writes. The views of the word answer the
registers and the operation, and the checks keep the zero register out of the fields in which 31 is
the stack pointer. -/
theorem writes_decoded {f : Form} (h : f.check = .ok ()) (hbuilt : ∀ r ∈ f.registers, r.IsBuilt)
    (isa : Isa) (position : Nat) : f.Writes (f.decoded isa position) := by
  have reads := reads_decoded h hbuilt isa position
  cases f with
  | addSubImmediate op rd rn imm12 shifted =>
    obtain ⟨field, -, -, -, flags, -⟩ := reads
    simp only [check, bind_eq_ok_iff] at h
    refine writes_of_destination (hbuilt rd (.head _)) (isZero_of_checkDestination h.2.2.1) ?_
      (.head _) id
    rw [← field, ← flags]
    rfl
  | addSubShifted op rd rn rm shift amount =>
    obtain ⟨field, -, -, -, -, flags, -⟩ := reads
    refine writes_of_generalOrZero rd op.setsFlags ?_ (.head _) id
    rw [← field, ← flags]
    rfl
  | addSubExtended op rd rn rm extend amount =>
    obtain ⟨field, -, -, -, -, flags, -⟩ := reads
    simp only [check, bind_eq_ok_iff] at h
    refine writes_of_destination (hbuilt rd (.head _)) (isZero_of_checkDestination h.2.2.1) ?_
      (.head _) id
    rw [← field, ← flags]
    rfl
  | logicalImmediate op rd rn bitmask =>
    obtain ⟨field, -, -, opc, -⟩ := reads
    simp only [check, bind_eq_ok_iff] at h
    refine writes_of_destination (hbuilt rd (.head _)) (isZero_of_checkDestination h.2.2.2.1) ?_
      (.head _) id
    rw [← field, ← isAnds_of_bits opc]
    rfl
  | logicalShifted op invert rd rn rm shift amount =>
    obtain ⟨field, -, -, -, opc, -⟩ := reads
    refine writes_of_generalOrZero rd (decide (op = .ands)) ?_ (.head _) id
    rw [← field, ← isAnds_of_bits opc]
    rfl
  | moveWide op rd imm16 hw =>
    refine writes_of_generalOrZero rd false ?_ (.head _) id
    rw [← reads.1]
    rfl
  | bitfield op rd rn immr imms =>
    refine writes_of_generalOrZero rd false ?_ (.head _) id
    rw [← reads.1]
    rfl
  | extract rd rn rm lsb =>
    refine writes_of_generalOrZero rd false ?_ (.head _) id
    rw [← reads.1]
    rfl
  | loadStoreUnsigned op rt base imm12 =>
    obtain ⟨field, -, -, load, -⟩ := reads
    refine ⟨_, rfl, fun r hr => exists_of_mem_load ?_, fun h => absurd h Bool.false_ne_true⟩
    rw [← field, ← load]
    exact hr
  | loadStoreIndexed op rt base offset mode =>
    exact writes_loadStoreIndexed h hbuilt
  | loadStoreRegister op rt base index extend scaled =>
    obtain ⟨field, -, -, -, load, -⟩ := reads
    refine ⟨_, rfl, fun r hr => exists_of_mem_load ?_, fun h => absurd h Bool.false_ne_true⟩
    rw [← field, ← load]
    exact hr
  | branchRegister op rn =>
    refine writes_of_link (by cases isa <;> rfl) fun link => ⟨.link .x, ?_, rfl, rfl⟩
    have call : op = .blr := of_decide_eq_true (reads.2.1.symm.trans link)
    rw [call]
    exact .head _
  | capabilityAddImmediate subtract cd cn imm12 shifted =>
    simp only [check, bind_eq_ok_iff, require_eq_ok_iff, Bool.and_eq_true, Bool.not_eq_true'] at h
    refine writes_of_destination (hbuilt cd (.head _)) (fun _ => h.2.2.1) ?_ (.head _) id
    rw [← reads.1]
    rfl
  | capabilityAddExtended cd cn rm extend amount =>
    simp only [check, bind_eq_ok_iff, require_eq_ok_iff, Bool.and_eq_true, Bool.not_eq_true'] at h
    refine writes_of_destination (hbuilt cd (.head _)) (fun _ => h.2.2.2.1) ?_ (.head _) id
    rw [← reads.1]
    rfl
  | capabilityBranch cn offset link =>
    refine writes_of_link rfl fun h => ⟨.link .c, ?_, rfl, rfl⟩
    obtain rfl : link = true := reads.2.2.symm.trans h
    exact .head _

end Decoded

/-- The words of capability forms are not allocated outside the capability state. -/
theorem leads_unallocated {f : Form} {isa : Isa} (hisa : ¬ f.IsIn isa) :
    Tables.Leads EncodingIndex.tables f.word (EncodingIndex.name isa) .unallocated := by
  have next : EncodingIndex.root.pick? [false, false, false, true] = some "Unallocated" := by
    decide
  have capability : isa = .a64 ∧ [28, 27, 26, 25].map f.word.getLsbD =
      [false, false, false, true] := by
    cases f with
    | capabilityAddImmediate | capabilityAddExtended | capabilityBranch =>
      refine ⟨?_, ?_⟩
      · cases isa with
        | a64 => rfl
        | c64 => exact absurd rfl hisa
      · simp (disch := decide) only [List.map, word, getLsbD_append_high]
        rfl
    | _ => exact absurd trivial hisa
  obtain ⟨rfl, bits⟩ := capability
  exact .pick (t := EncodingIndex.root) (by simp [EncodingIndex.tables]) bits next
    (.category .unallocated)

/-- **What the word of a form writes.** In either instruction set, at every position, the word of a
form that passes the checks writes the destinations of the form at most, and the flags only if the
form sets them.

**Proof sketch.** Where the instruction set has the form, the word is classified as the category of
the form, and its views answer the destinations. A capability form is not allocated in the other
instruction set and writes nothing there. -/
theorem writes_word {f : Form} (h : f.check = .ok ()) (hbuilt : ∀ r ∈ f.registers, r.IsBuilt)
    (isa : Isa) (position : Nat) :
    f.Writes ⟨f.word, EncodingIndex.graph.classify f.word isa, isa, position⟩ := by
  by_cases hisa : f.IsIn isa
  · rw [EncodingIndex.classify_eq_iff.2 (leads_word h hisa)]
    exact writes_decoded h hbuilt isa position
  · rw [EncodingIndex.classify_eq_iff.2 (leads_unallocated hisa)]
    exact ⟨⟨[], false⟩, rfl, List.forall_mem_nil _, fun h => absurd h Bool.false_ne_true⟩

end Form

end AArch64
