import AArch64.Proofs.Sums

/-!
# Offsets from capabilities

The words of the capability state, as far as they compute with addresses: an addition to a
capability leaves the address of the source plus an offset in its destination, and a branch through
memory reads its target at the address of its base plus an offset. A machine has the addresses of
capabilities only, so a capability register holds what its integer view holds.

Offsets that fit no field go through registers of the pool. A branch adds its offset to a capability
register first, and an addition materializes its offset in an integer register:

```text
branch [base, #offset]            add cd, cn, #offset
  add temp, base, #offset           mov temp, #offset
  branch [temp]                     add cd, cn, temp, sxtx
```

## Main definitions

* `AArch64.Instruction.executeCapability`, `AArch64.Machine.runCapability` — the execution of words
  of the capability state.
* `AArch64.Instruction.branchAddress?` — the address at which a branch reads its target.
* `AArch64.AddsOffset`, `AArch64.Branches` — the forms of an addition and of a branch.

## Main results

* `AArch64.Form.stepCapability_word` — the word of a form does what the form does.
* `AArch64.AddsOffset.executes` — the forms of an addition add the offset.
* `AArch64.Operation.reach_emit` — what additions and branches do, for all offsets.
-/

set_option autoImplicit false

namespace AArch64

/-! ## Execution -/

/-- What an instruction of the capability state does. The class of additions to capabilities has an
immediate form, which may subtract, and a form with an extended register; its other words are not
executed. -/
def Instruction.executeCapability (i : Instruction) (m : Machine) : Option Machine :=
  if i.category = .capabilityArithmetic then
    if i.bits 24 8 = 0b00000010#8 then
      some (m.write (.orStack i.rd)
        (if i.bit 23 then m.read (.orStack i.rn) - i.shiftedImmediate 64
          else m.read (.orStack i.rn) + i.shiftedImmediate 64))
    else if i.bits 21 11 = 0b11000010101#11 then
      some (m.write (.orStack i.rd) (m.read (.orStack i.rn) +
        (Extend.ofField (i.bits 13 3)).apply 64 (m.read (.orZero i.rm)) <<< (i.bits 10 3).toNat))
    else none
  else i.execute m

/-- The address at which a branch through memory reads its target. -/
def Instruction.branchAddress? (i : Instruction) (m : Machine) : Option (BitVec 64) :=
  if i.category = .capabilityBranchMemory then
    i.branchOffset?.map fun offset => m.read (.orStack i.rn) + BitVec.ofInt 64 offset
  else none

/-- A word as an instruction of the capability state. -/
def Instruction.ofCapabilityWord (w : Word) : Instruction where
  word := w
  category := EncodingIndex.graph.classify w .c64
  isa := .c64
  offset := 0

/-- What a form does in the capability state. -/
def Form.executeCapability (f : Form) (m : Machine) : Option Machine :=
  match f with
  | .capabilityAddImmediate subtract cd cn imm12 shifted =>
    let imm := BitVec.ofNat 64 (imm12 * if shifted then 4096 else 1)
    some (m.write cd (if subtract then m.read cn - imm else m.read cn + imm))
  | .capabilityAddExtended cd cn rm extend amount =>
    some (m.write cd (m.read cn + extend.apply 64 (m.read rm) <<< amount))
  | f => f.execute m

namespace Machine

/-- Executes a word of the capability state. -/
def stepCapability (m : Machine) (w : Word) : Option Machine :=
  (Instruction.ofCapabilityWord w).executeCapability m

/-- Executes words of the capability state one after another. -/
def runCapability (m : Machine) (ws : List Word) : Option Machine :=
  ws.foldlM stepCapability m

/-- What forms do one after another in the capability state. -/
def executeAllCapability (m : Machine) (fs : List Form) : Option Machine :=
  fs.foldlM (fun m f => f.executeCapability m) m

end Machine

/-! ## The words of forms -/

namespace Form

variable {f : Form} {cd cn rm : Register} (m : Machine)

/-- The capability state has all forms. -/
theorem isIn_c64 (f : Form) : f.IsIn .c64 := by
  cases f <;> first | rfl | trivial

/-- The word of a form, as an instruction of the capability state, is the form's. -/
theorem ofCapabilityWord_word (h : f.check = .ok ()) :
    Instruction.ofCapabilityWord f.word = f.decoded .c64 0 := by
  rw [Instruction.ofCapabilityWord, EncodingIndex.classify_eq_iff.2 (leads_word h f.isIn_c64),
    decoded]

/-- A word of an addition of an immediate to a capability does what the form does. -/
theorem executeCapability_addImmediate {subtract shifted : Bool} {imm12 : Nat}
    (h : (capabilityAddImmediate subtract cd cn imm12 shifted).check = .ok ())
    (hbuilt : ∀ r ∈ (capabilityAddImmediate subtract cd cn imm12 shifted).registers, r.IsBuilt) :
    ((capabilityAddImmediate subtract cd cn imm12 shifted).decoded .c64 0).executeCapability m =
      (capabilityAddImmediate subtract cd cn imm12 shifted).executeCapability m := by
  obtain ⟨rd, rn, sub, shift, imm⟩ := reads_decoded h hbuilt .c64 0
  simp only [registers, List.forall_mem_cons] at hbuilt
  obtain ⟨hcd, hcn, -⟩ := hbuilt
  simp only [check, bind_eq_ok_iff, require_eq_ok_iff, Bool.and_eq_true, Bool.not_eq_true'] at h
  obtain ⟨-, -, zero, zero'⟩ := h
  have top : ((capabilityAddImmediate subtract cd cn imm12 shifted).decoded .c64 0).bits 24 8 =
      0b00000010#8 := by
    rw [bits_decoded]
    simp (disch := decide) only [word, BitVec.extractLsb'_append_eq_of_le, Nat.reduceSub,
      BitVec.extractLsb'_eq_self]
  have category : ((capabilityAddImmediate subtract cd cn imm12 shifted).decoded .c64 0).category =
      .capabilityArithmetic := rfl
  rw [Instruction.executeCapability, if_pos category, if_pos top, sub,
    shiftedImmediate_of_fields imm shift, rd, rn, m.read_congr (Register.code_orStack hcn zero'),
    m.write_congr (Register.code_orStack hcd zero)]
  rfl

/-- A word of an addition of a register to a capability does what the form does. -/
theorem executeCapability_addExtended {extend : Extend} {amount : Nat}
    (h : (capabilityAddExtended cd cn rm extend amount).check = .ok ())
    (hbuilt : ∀ r ∈ (capabilityAddExtended cd cn rm extend amount).registers, r.IsBuilt) :
    ((capabilityAddExtended cd cn rm extend amount).decoded .c64 0).executeCapability m =
      (capabilityAddExtended cd cn rm extend amount).executeCapability m := by
  obtain ⟨rd, rn, rm', kind, shift⟩ := reads_decoded h hbuilt .c64 0
  simp only [registers, List.forall_mem_cons] at hbuilt
  obtain ⟨hcd, hcn, hrm, -⟩ := hbuilt
  simp only [check, bind_eq_ok_iff, require_eq_ok_iff, Bool.and_eq_true, Bool.not_eq_true'] at h
  obtain ⟨-, ⟨-, stack⟩, -, zero, zero'⟩ := h
  have opcode : ((capabilityAddExtended cd cn rm extend amount).decoded .c64 0).bits 21 11 =
      0b11000010101#11 := by
    rw [bits_decoded]
    simp (disch := decide) only [word, BitVec.extractLsb'_append_eq_of_le, Nat.reduceSub,
      BitVec.extractLsb'_eq_self]
  have top : ((capabilityAddExtended cd cn rm extend amount).decoded .c64 0).bits 24 8 =
      0b11000010#8 := by
    rw [bits_decoded]
    simp (disch := decide) only [word, BitVec.extractLsb'_append_eq_of_le, Nat.reduceSub]
    rfl
  have category : ((capabilityAddExtended cd cn rm extend amount).decoded .c64 0).category =
      .capabilityArithmetic := rfl
  rw [Instruction.executeCapability, if_pos category, top, if_neg (by decide), if_pos opcode, kind,
    shift, rd, rn, rm', m.read_congr (Register.code_orStack hcn zero'),
    m.read_congr (Register.code_orZero hrm stack), m.write_congr (Register.code_orStack hcd zero)]
  rfl

/-- **What the word of a form does in the capability state.** The word of a form that passes its
checks does what the form says. Branches have no next state. -/
theorem stepCapability_word (h : f.check = .ok ()) (hbuilt : ∀ r ∈ f.registers, r.IsBuilt) :
    m.stepCapability f.word = f.executeCapability m := by
  rw [Machine.stepCapability, ofCapabilityWord_word h]
  cases f with
  | capabilityAddImmediate => exact executeCapability_addImmediate m h hbuilt
  | capabilityAddExtended => exact executeCapability_addExtended m h hbuilt
  | capabilityBranch => rfl
  | branchRegister => rfl
  -- the integer forms are decoded alike in both instruction sets
  | loadStoreIndexed op rt base offset mode =>
    refine Eq.trans ?_ (execute_instruction m h hbuilt)
    cases mode <;> rfl
  | _ => exact execute_instruction m h hbuilt

/-- The address at which the word of a branch reads its target. -/
theorem branchAddress?_word {offset : Int} {link : Bool}
    (h : (capabilityBranch cn offset link).check = .ok ()) (hcn : cn.IsBuilt)
    (hzero : cn.isZero = false) :
    (Instruction.ofCapabilityWord (capabilityBranch cn offset link).word).branchAddress? m =
      some (m.read cn + BitVec.ofInt 64 offset) := by
  obtain ⟨base, distance, -⟩ := reads_decoded h (List.forall_mem_singleton.2 hcn) .c64 0
  have category : ((capabilityBranch cn offset link).decoded .c64 0).category =
      .capabilityBranchMemory := rfl
  rw [ofCapabilityWord_word h, Instruction.branchAddress?, if_pos category, distance, base,
    Option.map_some, m.read_congr (Register.code_orStack hcn hzero)]

/-- The word of a form is a branch through memory if the form is one. -/
theorem classify_word_eq_branch_iff (h : f.check = .ok ()) :
    EncodingIndex.graph.classify f.word .c64 = .capabilityBranchMemory ↔
      ∃ cn offset link, f = .capabilityBranch cn offset link := by
  rw [EncodingIndex.classify_eq_iff.2 (leads_word h f.isIn_c64)]
  constructor
  · intro category
    cases f with
    | capabilityBranch cn offset link => exact ⟨cn, offset, link, rfl⟩
    | loadStoreIndexed _ _ _ _ mode => cases mode <;> cases category
    | _ => cases category
  · rintro ⟨cn, offset, link, rfl⟩
    rfl

end Form

namespace Machine

variable {m m' : Machine} {fs gs : List Form}

/-- The words of forms do what the forms do. -/
theorem runCapability_words (hcheck : ∀ f ∈ fs, f.check = .ok ())
    (hbuilt : ∀ f ∈ fs, ∀ r ∈ f.registers, r.IsBuilt) (m : Machine) :
    m.runCapability (fs.map Form.word) = m.executeAllCapability fs :=
  foldlM_words (fun f hf m' => f.stepCapability_word m' (hcheck f hf) (hbuilt f hf)) m

/-- What is executed in the base instruction set does the same in the capability state. -/
theorem executeAllCapability_of_executeAll (h : m.executeAll fs = some m') :
    m.executeAllCapability fs = some m' := by
  induction fs generalizing m with
  | nil => exact h
  | cons f fs ih =>
    rw [executeAll_cons] at h
    obtain ⟨m₁, first, rest⟩ := Option.bind_eq_some_iff.1 h
    have first' : f.executeCapability m = some m₁ := by
      cases f with
      | capabilityAddImmediate => cases first
      | capabilityAddExtended => cases first
      | _ => exact first
    rw [executeAllCapability, List.foldlM_cons, first']
    exact ih rest

/-- Forms and then others are executed one after another. -/
theorem executeAllCapability_append (h : m.executeAllCapability fs = some m') :
    m.executeAllCapability (fs ++ gs) = m'.executeAllCapability gs := by
  unfold executeAllCapability at h ⊢
  rw [List.foldlM_append, h]
  rfl

end Machine

/-! ## Additions -/

/-- The forms that add an offset to a capability: the immediate form that holds its magnitude, or
those that leave it in a register of the pool and the form that adds the register. -/
inductive AddsOffset (pool : RegisterSet) (cd cn : Register) (offset : Int) : List Form → Prop
  /-- The immediate form. -/
  | immediate {imm12 : Nat} {shifted : Bool}
      (fits : Immediate.addSub? (if offset < 0 then -offset else offset) = some (imm12, shifted)) :
      AddsOffset pool cd cn offset [.capabilityAddImmediate (offset < 0) cd cn imm12 shifted]
  /-- The form with an extended register, which is neither the destination nor the source. -/
  | register {temp : Register} {fs : List Form} (general : temp.isGeneral)
      (member : pool.contains temp) (view : temp.view = .x) (source : cn.code ≠ temp.code)
      (forms : Move.immediateForms temp offset = .ok fs) :
      AddsOffset pool cd cn offset (fs ++ [.capabilityAddExtended cd cn temp .sxtx 0])

namespace AddsOffset

variable {pool : RegisterSet} {cd cn : Register} {offset : Int} {fs : List Form}

/-- An addition takes its temporary from a larger pool as well. -/
theorem mono {pool' : RegisterSet} (h : AddsOffset pool cd cn offset fs)
    (hpool : ∀ r, pool.contains r → pool'.contains r) : AddsOffset pool' cd cn offset fs := by
  cases h with
  | immediate fits => exact .immediate fits
  | register general member view source forms =>
    exact .register general (hpool _ member) view source forms

/-- The registers of an addition can be built. -/
theorem isBuilt (h : AddsOffset pool cd cn offset fs) (hcd : cd.IsBuilt) (hcn : cn.IsBuilt) :
    ∀ f ∈ fs, ∀ r ∈ f.registers, r.IsBuilt := by
  cases h with
  | immediate fits => simp [Form.registers, hcd, hcn]
  | @register temp fs general member view source forms =>
    have htemp : temp.IsBuilt := Register.isBuilt_of_isGeneral general
    have within : ∀ f ∈ fs, f.Within (Eq temp) false :=
      Move.within_of_immediateForms htemp rfl forms
    intro f hf
    rcases List.mem_append.1 hf with hf | hf
    · exact (within f hf).isBuilt
    · obtain rfl := List.mem_singleton.1 hf
      simp [Form.registers, hcd, hcn, htemp]

/-- An addition has no branch. -/
theorem ne_branch (h : AddsOffset pool cd cn offset fs) :
    ∀ f ∈ fs, ∀ base distance link, f ≠ .capabilityBranch base distance link := by
  rintro f hf base distance link rfl
  cases h with
  | immediate fits => cases List.mem_singleton.1 hf
  | register general member view source forms =>
    rcases List.mem_append.1 hf with hf | hf
    · rcases Move.cases_of_mem_immediateForms forms hf with ⟨_, _, _, h⟩ | ⟨_, _, h⟩ <;> cases h
    · cases List.mem_singleton.1 hf

/-- The destination of forms that pass their checks is not the zero register. -/
theorem isZero_destination (h : AddsOffset pool cd cn offset fs)
    (hcheck : ∀ f ∈ fs, f.check = .ok ()) : cd.isZero = false := by
  cases h with
  | immediate fits =>
    have last := hcheck _ (.head _)
    simp only [Form.check, bind_eq_ok_iff, require_eq_ok_iff, Bool.and_eq_true,
      Bool.not_eq_true'] at last
    exact last.2.2.1
  | register general member view source forms =>
    have last := hcheck _ (List.mem_append_right _ (.head _))
    simp only [Form.check, bind_eq_ok_iff, require_eq_ok_iff, Bool.and_eq_true,
      Bool.not_eq_true'] at last
    exact last.2.2.2.1

/-- A magnitude that fits the immediate form, added or subtracted, is the offset. -/
theorem add_magnitude {imm12 : Nat} {shifted : Bool} (x : BitVec 64)
    (h : Immediate.addSub? (if offset < 0 then -offset else offset) = some (imm12, shifted)) :
    (if decide (offset < 0) then x - BitVec.ofNat 64 (imm12 * if shifted then 4096 else 1)
      else x + BitVec.ofNat 64 (imm12 * if shifted then 4096 else 1)) =
      x + BitVec.ofInt 64 offset := by
  have magnitude := (Immediate.eq_of_addSub? h).1
  rw [← BitVec.ofInt_natCast, ← magnitude]
  by_cases negative : offset < 0
  · simp only [negative, decide_true, if_true]
    rw [BitVec.ofInt_neg, BitVec.sub_eq_add_neg, BitVec.neg_neg]
  · simp only [negative, decide_false, Bool.false_eq_true, if_false]

/-- **The forms of an addition add the offset** to the address of the source, modulo `2 ^ 64`, and
change nothing but the destination and registers of the pool other than the source. -/
theorem executes (h : AddsOffset pool cd cn offset fs) (hcheck : ∀ f ∈ fs, f.check = .ok ())
    (hcd : cd.IsBuilt) (m : Machine) :
    ∃ m', m.executeAllCapability fs = some m' ∧
      m'.read cd = m.read cn + BitVec.ofInt 64 offset ∧
      m.AgreesBut (MayWrite [cd] [cn] pool) m' := by
  have zero := h.isZero_destination hcheck
  have destination : ∀ q : Register, q.code = cd.code → MayWrite [cd] [cn] pool q :=
    fun q code => .inl ⟨cd, .head _, code.symm⟩
  cases h with
  | immediate fits =>
    refine ⟨_, rfl, ?_, .write destination _⟩
    rw [Machine.read_write_self hcd zero]
    exact add_magnitude (m.read cn) fits
  | @register temp fs general member view source forms =>
    have htemp : temp.IsBuilt := Register.isBuilt_of_isGeneral general
    have width : temp.width = 64 := by rw [Register.width, Register.is64, view]; rfl
    set m₁ := m.writeAt temp (BitVec.ofInt temp.width offset) with hm₁
    have moved : m.executeAllCapability fs = some m₁ :=
      Machine.executeAllCapability_of_executeAll (Move.executeAll_of_immediateForms m htemp forms)
    have scratch : m₁.read temp = BitVec.ofInt 64 offset := by
      rw [hm₁, Machine.writeAt, Machine.read_write_self htemp (temp.isZero_of_isGeneral general),
        width, BitVec.setWidth_eq]
    have kept : m₁.read cn = m.read cn := Machine.read_write_of_ne source
    have extended : Extend.sxtx.apply 64 (m₁.read temp) <<< 0 = BitVec.ofInt 64 offset := by
      rw [scratch, BitVec.shiftLeft_zero]
      exact (BitVec.signExtend_eq _).trans (BitVec.setWidth_eq _)
    have written : ∀ q : Register, q.code = temp.code → MayWrite [cd] [cn] pool q := by
      intro q code
      refine .inr ⟨(pool.contains_congr code).trans member, fun r hr => ?_⟩
      obtain rfl := List.mem_singleton.1 hr
      rw [code]
      exact source
    refine ⟨_, Machine.executeAllCapability_append moved, ?_,
      (Machine.AgreesBut.write written _).trans (.write destination _)⟩
    rw [Machine.read_write_self hcd zero, kept, extended]

end AddsOffset

/-! ## Branches -/

/-- The forms of a branch through memory: the form that holds the offset, or those that add it to a
capability register of the pool and the form without an offset. -/
inductive Branches (pool : RegisterSet) (base : Register) (offset : Int) (link : Bool) :
    List Form → Form → Prop
  /-- The form that holds the offset. -/
  | direct (fits : Immediate.isCapabilityOffset offset) :
      Branches pool base offset link [] (.capabilityBranch base offset link)
  /-- The form without an offset. -/
  | scratch {temp : Register} {fs : List Form} (misfits : ¬ Immediate.isCapabilityOffset offset)
      (general : temp.isGeneral) (member : pool.contains temp) (source : base.code ≠ temp.code)
      (adds : AddsOffset pool temp base offset fs) :
      Branches pool base offset link fs (.capabilityBranch temp 0 link)

namespace Branches

variable {pool : RegisterSet} {base : Register} {offset : Int} {link : Bool} {fs : List Form}
  {f : Form}

/-- The last form is the only branch, and it links if that is asked for. -/
theorem last_branch (h : Branches pool base offset link fs f) (hbase : base.IsBuilt) :
    (∀ g ∈ fs, ∀ b distance l, g ≠ .capabilityBranch b distance l) ∧
      ∃ b distance, f = .capabilityBranch b distance link ∧ b.IsBuilt := by
  cases h with
  | direct fits => exact ⟨List.forall_mem_nil _, base, offset, rfl, hbase⟩
  | scratch misfits general member source adds =>
    exact ⟨adds.ne_branch, _, 0, rfl, Register.isBuilt_of_isGeneral general⟩

/-- There is one form exactly if it holds the offset. -/
theorem eq_nil_iff (h : Branches pool base offset link fs f) :
    fs = [] ↔ Immediate.isCapabilityOffset offset := by
  cases h with
  | direct fits => exact iff_of_true rfl fits
  | scratch misfits general member source adds =>
    refine iff_of_false ?_ misfits
    rintro rfl
    generalize hfs : ([] : List Form) = fs at adds
    cases adds with
    | immediate fits => cases hfs
    | register => exact List.append_ne_nil_of_right_ne_nil _ (List.cons_ne_nil _ _) hfs.symm

/-- **A branch reads its target at the address of the base plus the offset**, modulo `2 ^ 64`. The
forms before it change registers of the pool other than the base. -/
theorem executes (h : Branches pool base offset link fs f)
    (hcheck : ∀ g ∈ fs ++ [f], g.check = .ok ()) (hbase : base.IsBuilt)
    (hzero : base.isZero = false) (m : Machine) :
    ∃ m', m.runCapability (fs.map Form.word) = some m' ∧
      (Instruction.ofCapabilityWord f.word).branchAddress? m' =
        some (m.read base + BitVec.ofInt 64 offset) ∧
      m.AgreesBut (MayWrite [] [base] pool) m' := by
  obtain ⟨checks, check⟩ := List.forall_mem_append.1 hcheck
  have check := List.forall_mem_singleton.1 check
  cases h with
  | direct fits => exact ⟨m, rfl, Form.branchAddress?_word m check hbase hzero, .refl m⟩
  | @scratch temp _ misfits general member source adds =>
    have htemp : temp.IsBuilt := Register.isBuilt_of_isGeneral general
    obtain ⟨m', execute, sum, agrees⟩ := adds.executes checks htemp m
    refine ⟨m', ?_, ?_, agrees.mono fun r hr => ?_⟩
    · rw [Machine.runCapability_words checks (adds.isBuilt htemp hbase), execute]
    · rw [Form.branchAddress?_word m' check htemp (temp.isZero_of_isGeneral general), sum]
      exact congrArg some (BitVec.add_zero _)
    · rcases hr with ⟨d, hd, code⟩ | hr
      · obtain rfl := List.mem_singleton.1 hd
        refine .inr ⟨(pool.contains_congr code.symm).trans member, fun q hq => ?_⟩
        obtain rfl := List.mem_singleton.1 hq
        exact code ▸ source
      · exact .inr hr

end Branches

/-! ## Emissions -/

namespace Emit

variable {s : Emitter} {cd cn base rd : Register} {offset imm : Int} {link : Bool}

/-- A register other than the stack pointer gets an immediate by the forms of the immediate. -/
theorem meets_movImmediate (hstack : rd.isStack = false) :
    (movImmediate rd imm).Meets s
      (fun _ fs p => p = s.pool ∧ Move.immediateForms rd imm = .ok fs) fun _ _ _ => True := by
  rw [movImmediate, if_neg (by simp [hstack])]
  exact .lift_bind (fun fs hfs => .forms ⟨rfl, hfs⟩ fun _ _ _ _ _ => trivial) fun _ _ => trivial

/-- An addition to a capability emits forms that add the offset, and leaves the pool. -/
theorem meets_capabilityAdd :
    (capabilityAdd cd cn offset).Meets s
      (fun _ fs p => p = s.pool ∧ AddsOffset s.pool cd cn offset fs) fun _ _ _ => True := by
  rw [capabilityAdd]
  split
  · next imm12 shifted fits =>
    exact .terminal (fun _ => ⟨rfl, .immediate fits⟩) fun _ _ => trivial
  · refine .scope (.reserve_bind (.acquire_general_bind fun temp htemp general member view => ?_))
    obtain ⟨member, other⟩ := RegisterSet.contains_eraseMany_iff.1 member
    refine .bind (meets_movImmediate (temp.isStack_of_isGeneral general)) ?_
    rintro _ fs p ⟨-, forms⟩
    exact .terminal (fun _ => ⟨rfl, .register general member view
      (other cn (.tail _ (.head _))) forms⟩) fun _ _ => trivial

/-- A branch through memory emits forms that branch there, and leaves the pool. -/
theorem meets_branchCapability :
    (branchCapability (.offset base offset) link).Meets s
      (fun _ fs p => p = s.pool ∧ ∃ gs g, fs = gs ++ [g] ∧ Branches s.pool base offset link gs g)
      fun _ _ _ => True := by
  refine .get_bind (.require_bind (fun _ => .require_bind (fun _ => ?_) fun _ => trivial)
    fun _ => trivial)
  split
  · next fits => exact .terminal (fun _ => ⟨rfl, [], _, rfl, .direct fits⟩) fun _ _ => trivial
  · next misfits =>
    refine .scope (.reserve_bind (.acquire_general_bind fun temp htemp general member view => ?_))
    obtain ⟨member, other⟩ := RegisterSet.contains_eraseMany_iff.1 member
    refine .bind meets_capabilityAdd ?_
    rintro _ fs p ⟨-, adds⟩
    refine .terminal (fun _ => ⟨rfl, fs, _, rfl, .scratch misfits general member
      (other base (.head _)) (adds.mono fun r hr => ?_)⟩) fun _ _ => trivial
    exact (RegisterSet.contains_eraseMany_iff.1 (RegisterSet.contains_of_contains_erase hr)).1

end Emit

/-! ## Operations -/

namespace Operation

/-- **Offsets from capabilities are exact**, for every offset, from every pool.

Whenever a branch through memory at an offset from a base returns, it has appended words of which
the last one, and no other, is a branch through memory. That branch links as asked for, and after the
words before it, it reads its target at what the base held at the beginning plus the offset, modulo
`2 ^ 64`. It is the only word exactly if the offset is a multiple of 16 from -1024 to 1008. Before
it, only registers of the pool other than the base change.

Whenever an addition to a capability returns, its words leave what the source held at the beginning
plus the offset in the destination, modulo `2 ^ 64`, and besides change registers of the pool other
than the source.

**Proof sketch.** Both emissions append forms of a fixed shape (`AArch64.Emit.meets_capabilityAdd`,
`AArch64.Emit.meets_branchCapability`), whose effects are composed (`AArch64.AddsOffset.executes`,
`AArch64.Branches.executes`). The registers of the pool that hold the offset and the sum are not the
source, which is therefore read as it was. -/
theorem reach_emit :
    (∀ (s s' : Emitter) (base : Register) (offset : Int) (link : Bool),
      base.IsBuilt → base.isZero = false →
      (branchCapability (.offset base offset) link).emit.apply s = (.ok (), s') →
      ∃ (ws : List Word) (w : Word), s'.code.words = s.code.words ++ (ws ++ [w]).toArray ∧
        (∀ v ∈ ws, EncodingIndex.graph.classify v .c64 ≠ .capabilityBranchMemory) ∧
        EncodingIndex.graph.classify w .c64 = .capabilityBranchMemory ∧
        (Instruction.ofCapabilityWord w).isLink = link ∧
        (ws = [] ↔ 16 ∣ offset ∧ -1024 ≤ offset ∧ offset ≤ 1008) ∧
        ∀ m : Machine, ∃ m', m.runCapability ws = some m' ∧
          (Instruction.ofCapabilityWord w).branchAddress? m' =
            some (m.read base + BitVec.ofInt 64 offset) ∧
          m.AgreesBut (MayWrite [] [base] s.pool) m') ∧
    ∀ (s s' : Emitter) (cd cn : Register) (offset : Int), cd.IsBuilt → cn.IsBuilt →
      (capabilityAdd cd cn offset).emit.apply s = (.ok (), s') →
      ∃ ws : List Word, s'.code.words = s.code.words ++ ws.toArray ∧
        ∀ m : Machine, ∃ m', m.runCapability ws = some m' ∧
          m'.read cd = m.read cn + BitVec.ofInt 64 offset ∧
          m.AgreesBut (MayWrite [cd] [cn] s.pool) m' := by
  constructor
  · intro s s' base offset link hbase hzero h
    obtain ⟨_, p, hcheck, rfl, -, fs, f, rfl, branches⟩ := Emit.meets_branchCapability.of_ok h
    obtain ⟨checks, check⟩ := List.forall_mem_append.1 hcheck
    have check := List.forall_mem_singleton.1 check
    have reads := branches.executes hcheck hbase hzero
    have single := branches.eq_nil_iff
    obtain ⟨others, b, distance, rfl, hb⟩ := branches.last_branch hbase
    refine ⟨fs.map Form.word, _, by simp [Emit.emitted], ?_,
      (Form.classify_word_eq_branch_iff check).2 ⟨b, distance, link, rfl⟩, ?_, ?_, reads⟩
    · intro v hv category
      obtain ⟨g, hg, rfl⟩ := List.mem_map.1 hv
      obtain ⟨b, distance, l, branch⟩ :=
        (Form.classify_word_eq_branch_iff (checks g hg)).1 category
      exact others g hg b distance l branch
    · rw [Form.ofCapabilityWord_word check]
      exact (Form.reads_capabilityBranch check hb).2.2
    · rw [List.map_eq_nil_iff, single, Immediate.isCapabilityOffset, decide_eq_true_iff,
        Int.dvd_iff_emod_eq_zero]
  · intro s s' cd cn offset hcd hcn h
    obtain ⟨fs, p, hcheck, rfl, -, adds⟩ := Emit.meets_capabilityAdd.of_ok h
    refine ⟨fs.map Form.word, rfl, fun m => ?_⟩
    rw [Machine.runCapability_words hcheck (adds.isBuilt hcd hcn)]
    exact adds.executes hcheck hcd m

/-- A branch through memory at the least offset from the stack pointer, and the addition of that
offset to a capability. -/
theorem reach_emit_lowest :
    ((branchCapability (.offset (.stack .c) (-2 ^ 63)) true).emit.apply (.new .c64)).1 = .ok () ∧
      (∃ (ws : List Word) (w : Word),
        ((branchCapability (.offset (.stack .c) (-2 ^ 63)) true).emit.apply
          (.new .c64)).2.code.words = (Emitter.new .c64).code.words ++ (ws ++ [w]).toArray ∧
        ws ≠ [] ∧ (Instruction.ofCapabilityWord w).isLink = true ∧
        ∀ m : Machine, ∃ m', m.runCapability ws = some m' ∧
          (Instruction.ofCapabilityWord w).branchAddress? m' =
            some (m.stack + BitVec.ofInt 64 (-2 ^ 63))) ∧
      ((capabilityAdd ⟨1, .c⟩ ⟨1, .c⟩ (-2 ^ 63)).emit.apply (.new .c64)).1 = .ok () ∧
      ∃ ws : List Word,
        ((capabilityAdd ⟨1, .c⟩ ⟨1, .c⟩ (-2 ^ 63)).emit.apply (.new .c64)).2.code.words =
          (Emitter.new .c64).code.words ++ ws.toArray ∧
        ∀ m : Machine, ∃ m', m.runCapability ws = some m' ∧
          m'.read ⟨1, .c⟩ = m.read ⟨1, .c⟩ + BitVec.ofInt 64 (-2 ^ 63) := by
  have branches : ((branchCapability (.offset (.stack .c) (-2 ^ 63)) true).emit.apply
      (.new .c64)).1 = .ok () := rfl
  have adds : ((capabilityAdd ⟨1, .c⟩ ⟨1, .c⟩ (-2 ^ 63)).emit.apply (.new .c64)).1 = .ok () := rfl
  obtain ⟨reads, sums⟩ := reach_emit
  refine ⟨branches, ?_, adds, ?_⟩
  · obtain ⟨ws, w, hws, -, -, links, single, runs⟩ :=
      reads _ _ _ _ _ (Register.isBuilt_stack .c) rfl (Prod.ext branches rfl)
    refine ⟨ws, w, hws, fun nil => ?_, links, fun m => ?_⟩
    · have small := single.1 nil
      omega
    · obtain ⟨m', run, address, -⟩ := runs m
      exact ⟨m', run, address⟩
  · have built : Register.IsBuilt ⟨1, .c⟩ := .inl ⟨1, rfl⟩
    obtain ⟨ws, hws, runs⟩ := sums _ _ _ _ _ built built (Prod.ext adds rfl)
    refine ⟨ws, hws, fun m => ?_⟩
    obtain ⟨m', run, sum, -⟩ := runs m
    exact ⟨m', run, sum⟩

end Operation

end AArch64
