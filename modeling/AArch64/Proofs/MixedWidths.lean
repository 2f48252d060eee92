import AArch64.Proofs.Sums

/-!
# Registers of another width

An addition or subtraction whose destination and source have one width may be asked to add a
register of the other width, plain or shifted. Which form the register would go into decides what
becomes of that:

| way of the register                    | width of the register                              |
|----------------------------------------|----------------------------------------------------|
| shifted form                           | checked, the operation faults                      |
| extended form, with the stack pointer  | not looked at, the field is read as `uxtw`, `uxtx` |
| scratch register                       | not looked at, a move reads its source as it needs |

## Main definitions

* `AArch64.Operand.shifted?` — plain and shifted registers, with their shift.
* `AArch64.AddSub.TakesShifted` — whether the shifted form takes a register.

## Main results

* `AArch64.Emit.mov_withView` — a move does not look at the view of its source.
* `AArch64.Operation.mixed_emit` — when a register of another width is refused.
-/

set_option autoImplicit false

namespace AArch64

namespace Operand

/-- The same operand with its register in another view. -/
def withView (operand : Operand) (view : RegisterView) : Operand :=
  match operand with
  | .immediate value => .immediate value
  | .register r => .register (r.withView view)
  | .shifted r shift amount => .shifted (r.withView view) shift amount
  | .extended r extend amount => .extended (r.withView view) extend amount

/-- The register of a plain or shifted operand, with its shift. A plain register is shifted to the
left by nothing. -/
def shifted? : Operand → Option (Register × Shift × Nat)
  | .register r => some (r, .lsl, 0)
  | .shifted r shift amount => some (r, shift, amount)
  | _ => none

end Operand

/-! ## Forms -/

namespace AddSub

variable {op : AddSubOp} {rd rn rm : Register} {shift : Shift} {amount : Nat}

/-- Whether the shifted form takes a register: no register is the stack pointer, and the form has
the shift. -/
def TakesShifted (rd rn rm : Register) (shift : Shift) (amount : Nat) : Prop :=
  (rd.isStack = false ∧ rn.isStack = false ∧ rm.isStack = false) ∧ shift ≠ .ror ∧
    amount < rd.width

/-- Where the shifted form takes the register, it is the one that is chosen. -/
theorem shiftedForm?_of_takesShifted (h : TakesShifted rd rn rm shift amount) :
    shiftedForm? op rd rn rm shift amount = some (.addSubShifted op rd rn rm shift amount) := by
  obtain ⟨⟨hrd, hrn, hrm⟩, fits⟩ := h
  simp only [shiftedForm?, hrd, hrn, hrm, Bool.or_self, Bool.false_eq_true, if_false, if_pos fits]

/-- Without the shifted form, there is the extended form or none, whatever the view of the
register. -/
theorem shiftedForm?_of_not_takesShifted (op : AddSubOp)
    (h : ¬ TakesShifted rd rn rm shift amount) (view : RegisterView) :
    shiftedForm? op rd rn rm shift amount = none ∧
        shiftedForm? op rd rn (rm.withView view) shift amount = none ∨
      ∃ extend, shiftedForm? op rd rn rm shift amount =
          some (.addSubExtended op rd rn rm extend amount) ∧
        shiftedForm? op rd rn (rm.withView view) shift amount =
          some (.addSubExtended op rd rn (rm.withView view) extend amount) := by
  have same : (rm.withView view).isStack = rm.isStack := rfl
  unfold shiftedForm?
  rw [same]
  by_cases hrm : rm.isStack
  · simp only [if_pos hrm, and_self, true_or]
  · simp only [if_neg hrm]
    by_cases stack : rd.isStack || rn.isStack
    · simp only [if_pos stack]
      by_cases extended : allowsStack op rd rn && shift = .lsl && amount ≤ 4
      · simp only [if_pos extended]
        exact .inr ⟨_, rfl, rfl⟩
      · simp only [if_neg extended, and_self, true_or]
    · simp only [if_neg stack]
      by_cases fits : shift ≠ .ror ∧ amount < rd.width
      · simp only [Bool.or_eq_true, not_or, Bool.not_eq_true] at stack
        exact absurd ⟨⟨stack.1, stack.2, Bool.eq_false_iff.2 hrm⟩, fits⟩ h
      · simp only [if_neg fits, and_self, true_or]

/-- The shifted form of a register of another width fails its last check. -/
theorem check_addSubShifted_of_mixed (h : TakesShifted rd rn rm shift amount)
    (hwidth : rd.is64 = rn.is64) (hmixed : rd.is64 ≠ rm.is64) :
    (Form.addSubShifted op rd rn rm shift amount).check =
      .error (.rejected (.mixedWidths rd rm)) := by
  obtain ⟨⟨hrd, hrn, hrm⟩, hshift, hamount⟩ := h
  simp only [Form.check, Form.checkWidths, hrd, hrn, hrm, decide_eq_true hshift,
    decide_eq_true hamount, decide_eq_true hwidth, decide_eq_false hmixed]
  rfl

end AddSub

/-! ## Emissions -/

namespace Emit

variable {op : AddSubOp} {rd rn rm : Register} {shift : Shift} {amount : Nat} {operand : Operand}

/-- A move does not look at the view of its source: it reads the source in the view of its
destination. -/
theorem mov_withView (rd : Register) (operand : Operand) (view : RegisterView) :
    mov rd (operand.withView view) = mov rd operand := by
  cases operand <;> rfl

/-- Nor does a scope, which knows registers by their numbers. -/
theorem addSubThroughScratch_withView (op : AddSubOp) (rd rn : Register) (operand : Operand)
    (view : RegisterView) :
    addSubThroughScratch op rd rn (operand.withView view) =
      addSubThroughScratch op rd rn operand := by
  unfold addSubThroughScratch
  simp only [mov_withView]
  cases operand <;> rfl

/-- An addition that does not take the shifted form does not look at the view of its operand. -/
theorem addSub_withView (hoperand : operand.shifted? = some (rm, shift, amount))
    (h : ¬ AddSub.TakesShifted rd rn rm shift amount) (view : RegisterView) :
    addSub op rd rn (operand.withView view) = addSub op rd rn operand := by
  have direct : ∀ v : RegisterView,
      AddSub.directForm? op rd rn operand = .ok (AddSub.shiftedForm? op rd rn rm shift amount) ∧
      AddSub.directForm? op rd rn (operand.withView v) =
        .ok (AddSub.shiftedForm? op rd rn (rm.withView v) shift amount) := by
    intro v
    cases operand <;> cases hoperand <;> exact ⟨rfl, rfl⟩
  unfold addSub
  rw [(direct view).1, (direct view).2, addSubThroughScratch_withView]
  rcases AddSub.shiftedForm?_of_not_takesShifted op h view with ⟨none, none'⟩ |
    ⟨extend, some, some'⟩
  · rw [none, none']
  · rw [some, some']
    -- The extended form has the number of the register that it extends, and not its view.
    rfl

/-- An addition that takes the shifted form refuses a register of another width. -/
theorem apply_addSub_of_mixed (hoperand : operand.shifted? = some (rm, shift, amount))
    (h : AddSub.TakesShifted rd rn rm shift amount) (hwidth : rd.is64 = rn.is64)
    (hmixed : rd.is64 ≠ rm.is64) (s : Emitter) :
    (addSub op rd rn operand).apply s =
      (.error (.rejected (if rd.isCapability || rn.isCapability then .integerOnCapability
        else .mixedWidths rd rm)), s) := by
  have direct : AddSub.directForm? op rd rn operand =
      .ok (some (.addSubShifted op rd rn rm shift amount)) := by
    rw [← AddSub.shiftedForm?_of_takesShifted h]
    cases operand <;> cases hoperand <;> rfl
  unfold addSub
  rw [direct, decide_eq_true hwidth, h.1.1, Bool.and_false, ← Bool.not_or]
  cases rd.isCapability || rn.isCapability with
  | true => rfl
  | false =>
    show (terminal (.addSubShifted op rd rn rm shift amount)).apply s = _
    rw [terminal_eq, apply_form, AddSub.check_addSubShifted_of_mixed h hwidth hmixed]
    rfl

end Emit

/-! ## Operations -/

namespace Operation

variable {o : Operation} {op : AddSubOp} {rd rn rm : Register} {operand : Operand} {shift : Shift}
  {amount : Nat}

/-- **When a register of another width is refused.** Let the destination and the source of an
addition, a subtraction, a comparison or a negation have one width, and let its operand be a plain
or shifted register of the other width.

* If the shifted form takes the register, the operation faults and changes nothing.
* Otherwise it is the same operation with the register in the view of the destination: it emits the
  same words, and it faults exactly if that one does.

**Proof sketch.** Of the forms, only the shifted one compares the widths
(`AArch64.AddSub.check_addSubShifted_of_mixed`). The extended form has a field for the number of the
register, and an addition through a scratch register moves the operand, in the view of the scratch
register (`AArch64.Emit.mov_withView`). -/
theorem mixed_emit (hsum : o.sum? = some (op, rd, rn, operand))
    (hoperand : operand.shifted? = some (rm, shift, amount)) (hwidth : rd.is64 = rn.is64)
    (hmixed : rd.is64 ≠ rm.is64) :
    (AddSub.TakesShifted rd rn rm shift amount → ∀ s : Emitter, o.emit.apply s =
      (.error (.rejected (if rd.isCapability || rn.isCapability then .integerOnCapability
        else .mixedWidths rd rm)), s)) ∧
    (¬ AddSub.TakesShifted rd rn rm shift amount →
      o.emit = Emit.addSub op rd rn (operand.withView rd.view)) := by
  rw [emit_of_sum? hsum]
  constructor
  · intro h s
    exact Emit.apply_addSub_of_mixed hoperand h hwidth hmixed s
  · intro h
    exact (Emit.addSub_withView hoperand h rd.view).symm

/-- A 32-bit register is refused by the shifted form, and a rotated 64-bit register is read as a
32-bit one. -/
theorem mixed_emit_ways :
    (∀ s : Emitter, (addSub .add ⟨0, .x⟩ ⟨1, .x⟩ (.register ⟨2, .w⟩)).emit.apply s =
      (.error (.rejected (.mixedWidths ⟨0, .x⟩ ⟨2, .w⟩)), s)) ∧
    (neg ⟨0, .w⟩ (.shifted ⟨2, .x⟩ .ror 8)).emit =
      Emit.addSub .sub ⟨0, .w⟩ (.zero .w) (.shifted ⟨2, .w⟩ .ror 8) := by
  have takes : AddSub.TakesShifted ⟨0, .x⟩ ⟨1, .x⟩ ⟨2, .w⟩ .lsl 0 := by
    unfold AddSub.TakesShifted
    decide
  have rotates : ¬ AddSub.TakesShifted ⟨0, .w⟩ (.zero .w) ⟨2, .x⟩ .ror 8 := fun h => h.2.1 rfl
  have refused := mixed_emit (o := addSub .add ⟨0, .x⟩ ⟨1, .x⟩ (.register ⟨2, .w⟩)) rfl rfl rfl
    (by decide)
  have read := mixed_emit (o := neg ⟨0, .w⟩ (.shifted ⟨2, .x⟩ .ror 8)) rfl rfl rfl (by decide)
  exact ⟨refused.1 takes, read.2 rotates⟩

/-- A 32-bit register is added to the 64-bit stack pointer, and a rotated one to a 64-bit
register. -/
theorem mixed_emit_accepted :
    (Register.is64 ⟨1, .w⟩ = false ∧ (Register.stack .x).is64 = true ∧
      ((addSub .add (.stack .x) (.stack .x) (.register ⟨1, .w⟩)).emit.apply
        (.new .a64)).1 = .ok ()) ∧
    (Register.is64 ⟨2, .w⟩ = false ∧ Register.is64 ⟨0, .x⟩ = true ∧ Register.is64 ⟨1, .x⟩ = true ∧
      ((addSub .add ⟨0, .x⟩ ⟨1, .x⟩ (.shifted ⟨2, .w⟩ .ror 8)).emit.apply
        (.new .a64)).1 = .ok ()) :=
  ⟨⟨rfl, rfl, rfl⟩, rfl, rfl, rfl, rfl⟩

end Operation

end AArch64
