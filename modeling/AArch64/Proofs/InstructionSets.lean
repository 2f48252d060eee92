import AArch64.Proofs.Effects
import AArch64.Proofs.Production

/-!
# Operations in their instruction sets

The words that an operation appends are instructions of the current instruction set: the tables
classify none of them as reserved, and none as outside what they cover. There is one exception. The
addition to a capability does not ask for the instruction set, and in A64 the words of its forms are
reserved; a branch through memory, the other operation of the capability state, faults there.

## Main results

* `AArch64.Form.isUnknown_classify_eq_false_iff` — the word of a form is known where the form is.
* `AArch64.Operation.isUnknown_classify_of_emit` — the words of an operation are known unless it
  adds to a capability outside the capability state.
-/

set_option autoImplicit false

namespace AArch64

namespace Form

/-- No form has an unknown category. -/
theorem isUnknown_category (f : Form) (isa : Isa) : (f.category isa).isUnknown = false := by
  cases f with
  | loadStoreIndexed op rt base offset mode => cases mode <;> rfl
  | branchRegister => cases isa <;> rfl
  | _ => rfl

/-- The word of a form is known in the instruction sets that have the form, and in no other. -/
theorem isUnknown_classify_eq_false_iff {f : Form} (h : f.check = .ok ()) (isa : Isa) :
    (EncodingIndex.graph.classify f.word isa).isUnknown = false ↔ f.IsIn isa := by
  constructor
  · intro known
    by_contra hisa
    rw [EncodingIndex.classify_eq_iff.2 (leads_unallocated hisa)] at known
    cases known
  · intro hisa
    rw [EncodingIndex.classify_eq_iff.2 (leads_word h hisa)]
    exact f.isUnknown_category isa

end Form

namespace Emit

/-! ## Operations of the capability state -/

/-- A branch through memory that returns was emitted in the capability state. -/
theorem isa_of_branchCapability {mem : MemOperand} {link : Bool} {s s' : Emitter}
    (h : (branchCapability mem link).apply s = (.ok (), s')) : s.isa = .c64 := by
  obtain ⟨code, pool, isa⟩ := s
  cases isa with
  | c64 => rfl
  | a64 =>
    have faults : ((branchCapability mem link).apply ⟨code, pool, .a64⟩).1 =
        .error (.rejected .capabilityBranchIsa) := rfl
    rw [h] at faults
    cases faults

/-- Whenever an emission returns, one of its forms has a property. -/
def Includes {α : Type} (e : Emit α) (P : Form → Prop) : Prop :=
  ∀ s : Emitter, e.Meets s (fun _ fs _ => ∃ f ∈ fs, P f) fun _ _ _ => True

namespace Includes

variable {α β : Type} {e : Emit α} {P : Form → Prop}

/-- What has to be one instruction is one of the forms. -/
theorem terminal {f : Form} (h : P f) : (terminal f).Includes P :=
  fun _ => Meets.terminal (fun _ => ⟨f, List.mem_singleton_self f, h⟩) fun _ _ => trivial

/-- A scope emits the forms of its body. -/
theorem scope {body : Emit α} (h : body.Includes P) : (scope body).Includes P :=
  fun s => Meets.scope (h s)

/-- What is emitted last is one of the forms. -/
theorem bind {k : α → Emit β} (h : e.Produces (fun _ => True) false) (hk : ∀ a, (k a).Includes P) :
    (e >>= k).Includes P := by
  intro s
  have first : e.Meets s (fun _ _ _ => True) fun _ _ _ => True :=
    (h s).mono (fun _ _ _ _ => trivial) fun _ _ _ _ => trivial
  refine first.bind fun a fs p _ => (hk a _).mono ?_ fun _ _ _ _ => trivial
  rintro b gs q ⟨f, hf, hP⟩
  exact ⟨f, List.mem_append_right fs hf, hP⟩

end Includes

/-- An addition to a capability ends with a form of the capability state. -/
theorem includes_capabilityAdd (cd cn : Register) (offset : Int) :
    (capabilityAdd cd cn offset).Includes fun f => ¬ f.IsIn .a64 := by
  have capability : ¬ Isa.a64 = .c64 := by decide
  rw [capabilityAdd]
  split
  · exact .terminal capability
  · refine .scope (.bind .reserve fun _ => .bind .acquire fun temp => ?_)
    exact .bind ((produces_movImmediate temp offset).mono fun _ _ => trivial)
      fun _ => .terminal capability

end Emit

namespace Operation

/-- **Operations append instructions of the current instruction set**, unless they add to a
capability outside the capability state. If the operation returns, every word that it has appended
has a category other than the two unknown ones, in C64 for every operation, and in A64 for every
operation but the addition to a capability; that addition appends a reserved word there.

**Proof sketch.** The operation appends words of forms that the instruction sets have that have the
operation (`AArch64.Operation.produces_emit`), and these words are known
(`AArch64.Form.isUnknown_classify_eq_false_iff`). A branch through memory checks the instruction
set. The addition to a capability ends with a form that A64 does not have. -/
theorem isUnknown_classify_of_emit {op : Operation} {s s' : Emitter}
    (h : op.emit.apply s = (.ok (), s')) :
    ∃ ws : List Word, s'.code.words = s.code.words ++ ws.toArray ∧ s'.isa = s.isa ∧
      ((∀ w ∈ ws, (EncodingIndex.graph.classify w s.isa).isUnknown = false) ↔
        s.isa = .c64 ∨ ∀ cd cn offset, op ≠ .capabilityAdd cd cn offset) := by
  obtain ⟨fs, hcheck, hfs, hs⟩ := op.produces_emit.exists_emitted s
  rw [h] at hs
  obtain rfl : s' = Emit.emitted s fs s.pool := hs
  refine ⟨fs.map Form.word, rfl, rfl, ?_⟩
  constructor
  · intro known
    by_contra hne
    simp only [not_or, not_forall, not_not] at hne
    obtain ⟨hisa, cd, cn, offset, rfl⟩ := hne
    have a64 : s.isa = .a64 := by
      cases hs : s.isa with
      | a64 => rfl
      | c64 => exact absurd hs hisa
    obtain ⟨gs, p, hcheck', hwords, f, hf, hnot⟩ :=
      (Emit.includes_capabilityAdd cd cn offset s).of_ok h
    have same : fs.map Form.word = gs.map Form.word := by
      have := Array.append_right_inj s.code.words |>.1 (congrArg (·.code.words) hwords)
      exact congrArg Array.toList this
    have mem : f.word ∈ fs.map Form.word := same ▸ List.mem_map_of_mem hf
    have := known f.word mem
    rw [Form.isUnknown_classify_eq_false_iff (hcheck' f hf), a64] at this
    exact hnot this
  · intro hisa
    have isIn : op.IsIn s.isa := by
      cases op with
      | branchCapability mem link => exact Emit.isa_of_branchCapability h
      | capabilityAdd cd cn offset => exact hisa.resolve_right fun hne => hne cd cn offset rfl
      | _ => trivial
    intro w hw
    obtain ⟨f, hf, rfl⟩ := List.mem_map.1 hw
    exact (Form.isUnknown_classify_eq_false_iff (hcheck f hf) s.isa).2 (hfs f hf s.isa isIn)

/-- A branch through memory at an offset that no form holds. -/
def farBranch : Operation :=
  .branchCapability (.offset ⟨3, .c⟩ 0x12345678) true

/-- The target is computed in register 16, by instructions of C64. -/
theorem isUnknown_classify_of_emit_farBranch :
    (farBranch.emit.apply (.new .c64)).1 = .ok () ∧
      ∃ ws : List Word, (farBranch.emit.apply (.new .c64)).2.code.words =
          (Emitter.new .c64).code.words ++ ws.toArray ∧
        ∀ w ∈ ws, (EncodingIndex.graph.classify w .c64).isUnknown = false := by
  have returns : (farBranch.emit.apply (.new .c64)).1 = .ok () := rfl
  have run : farBranch.emit.apply (.new .c64) =
      (.ok (), (farBranch.emit.apply (.new .c64)).2) := Prod.ext returns rfl
  obtain ⟨ws, hws, -, known⟩ := isUnknown_classify_of_emit run
  exact ⟨returns, ws, hws, known.2 (.inl rfl)⟩

/-- In A64 the addition to a capability returns all the same, with a reserved word. -/
theorem isUnknown_classify_capabilityAdd :
    ((Operation.capabilityAdd ⟨0, .c⟩ ⟨1, .c⟩ 16).emit.apply (.new .a64)).1 = .ok () ∧
      ∃ w, ((Operation.capabilityAdd ⟨0, .c⟩ ⟨1, .c⟩ 16).emit.apply (.new .a64)).2.code.words =
          #[w] ∧ EncodingIndex.graph.classify w .a64 = .unallocated := by
  refine ⟨rfl, _, rfl, ?_⟩
  exact EncodingIndex.classify_eq_iff.2 (Form.leads_unallocated
    (f := .capabilityAddImmediate false ⟨0, .c⟩ ⟨1, .c⟩ 16 false)
    (show ¬ Isa.a64 = .c64 by decide))

end Operation

end AArch64
