import AArch64.Proofs.Materialization
import AArch64.Proofs.OperationFrame

/-!
# Which loads and stores are accepted

Whether an emission returns, as a condition on its arguments. Such conditions are put together along
the steps of an emission: one after another both have to hold, and scratch registers are no
condition if the pool has enough of them.

A load or store with an offset has forms that hold the offset and a sequence for offsets that they
do not hold. Both check the transfer register, but they differ in what they check of the base:

| base               | offset held    | offset, not held | pre- and post-index, not held |
|--------------------|----------------|------------------|-------------------------------|
| zero register      | refused        | accepted         | refused                       |
| capability         | accepted       | refused          | refused                       |
| other, 64 bits     | accepted       | accepted         | accepted                      |

The sequence adds to the base, which may be the zero register but no capability. In the offset mode
it accesses a scratch register, so that the base itself is not checked.

## Main definitions

* `AArch64.Emit.Decides` — an emission returns exactly if a condition holds.
* `AArch64.IndexMode.operand` — the addressing modes with an offset.
* `AArch64.LoadStore.Holds` — which offsets a form holds.
* `AArch64.LoadStore.Permits`, `AArch64.LoadStore.Accepts` — which registers are permitted, and
  which loads and stores are accepted.

## Main results

* `AArch64.Emit.decides_addSub` — additions of immediates are refused for capabilities only.
* `AArch64.LoadStore.exists_accepts_and_not_iff` — when acceptance depends on the offset.
* `AArch64.Operation.accepts_emit` — which loads and stores are accepted, and for which registers
  that depends on the offset.
-/

set_option autoImplicit false

namespace AArch64

/-! ## Emissions that return under a condition -/

namespace Emit

/-- An emission returns exactly if a condition holds. -/
def Decides (e : Emit Unit) (s : Emitter) (P : Prop) : Prop :=
  e.Meets s (fun _ _ _ => P) fun _ _ _ => ¬ P

namespace Decides

variable {e : Emit Unit} {s : Emitter} {P Q : Prop} {f : Form}

/-- An emission that a condition decides returns exactly under it. -/
theorem returns_iff (h : e.Decides s P) : (e.apply s).1 = .ok () ↔ P := by
  obtain ⟨fs, p, -, -, h⟩ := h
  cases hanswer : (e.apply s).1 with
  | ok u =>
    rw [hanswer] at h
    exact iff_of_true rfl h
  | error x =>
    rw [hanswer] at h
    exact iff_of_false nofun h

/-- A condition may be replaced by an equivalent one. -/
theorem congr (h : e.Decides s P) (hPQ : P ↔ Q) : e.Decides s Q :=
  propext hPQ ▸ h

/-- Both conditions are necessary. The second emission may start with any pool. -/
theorem bind {k : Unit → Emit Unit} (h : e.Decides s P)
    (hk : ∀ t, (k ()).Decides t Q) : (e >>= k).Decides s (P ∧ Q) := by
  refine Meets.bind (P := fun _ _ _ => P) ?_ fun _ fs p hP => ?_
  · exact Meets.mono h (fun _ _ _ hP => hP) fun _ _ _ hP hPQ => hP hPQ.1
  · exact Meets.mono (hk _) (fun _ _ _ hQ => ⟨hP, hQ⟩) fun _ _ _ hQ hPQ => hQ hPQ.2

/-- The last form of an operation is emitted exactly if it passes its checks. -/
theorem terminal : (terminal f).Decides s (f.check = .ok ()) :=
  Meets.terminal id fun y hy hok => by
    rw [hok] at hy
    cases hy

/-- After one form, the pool is what it was. -/
theorem terminal_bind {k : Unit → Emit Unit}
    (hk : ∀ t : Emitter, t.pool = s.pool → (k ()).Decides t Q) :
    (Emit.terminal f >>= k).Decides s (f.check = .ok () ∧ Q) := by
  refine Meets.bind (P := fun _ _ p => f.check = .ok () ∧ p = s.pool) ?_ ?_
  · refine Meets.terminal (fun hok => ⟨hok, rfl⟩) fun y hy hok => ?_
    rw [hok.1] at hy
    cases hy
  · rintro _ fs _ ⟨hok, rfl⟩
    exact Meets.mono (hk _ rfl) (fun _ _ _ hQ => ⟨hok, hQ⟩) fun _ _ _ hQ hPQ => hQ hPQ.2

/-- A choice that is made is no condition. -/
theorem lift_bind {α : Type} {x : Except Fault α} {a : α} {k : α → Emit Unit} (hx : x = .ok a)
    (hk : (k a).Decides s P) : (lift x >>= k).Decides s P := by
  subst hx
  exact Meets.lift_bind (fun b hb => Except.ok.inj hb ▸ hk) nofun

/-- A requirement is one more condition. -/
theorem require_bind {holds : Bool} {r : Rejection} {k : Unit → Emit Unit}
    (hk : holds = true → (k ()).Decides s Q) :
    (require holds r >>= k).Decides s (holds = true ∧ Q) := by
  refine Meets.require_bind (fun hholds => ?_) fun hholds hQ => ?_
  · exact Meets.mono (hk hholds) (fun _ _ _ hQ => ⟨hholds, hQ⟩) fun _ _ _ hQ hPQ => hQ hPQ.2
  · rw [hholds] at hQ
    exact Bool.false_ne_true hQ.1

/-- A scope returns exactly if its body does. -/
theorem scope (h : e.Decides s P) : (scope e).Decides s P :=
  Meets.scope h

/-- Taking registers out of the pool always returns. -/
theorem reserve_bind {rs : List Register} {k : Unit → Emit Unit}
    (hk : (k ()).Decides (emitted s [] (s.pool.eraseMany rs)) P) :
    (reserve rs >>= k).Decides s P :=
  Meets.reserve_bind hk

/-- A pool with a member has a scratch register. -/
theorem acquire_bind {view : RegisterView} {k : Register → Emit Unit}
    (hpool : ∃ a, s.pool.contains a)
    (hk : ∀ temp, temp.isGeneral → s.pool.contains temp → temp.view = view →
      (k temp).Decides (emitted s [] (s.pool.erase temp)) P) :
    (acquire view >>= k).Decides s P := by
  obtain ⟨a, ha⟩ := hpool
  refine Meets.acquire_bind (fun n temp hn htemp => ?_) (fun hn => ?_) fun n hn hnone => ?_
  · obtain ⟨-, -, hview⟩ := Register.code_of_general? htemp
    have member := RegisterSet.contains_of_first? hn htemp
    exact hk temp (RegisterSet.isGeneral_of_contains member) member hview
  · rw [RegisterSet.first?_eq_none_iff.1 hn] at ha
    simp [RegisterSet.contains, RegisterSet.empty] at ha
  · have le := RegisterSet.le_of_contains hn ha
    have lt := a.isGeneral_iff.1 (RegisterSet.isGeneral_of_contains ha)
    rw [Register.general?, if_pos (show n < Register.generalCount from by
      unfold Register.generalCount; omega)] at hnone
    cases hnone

/-- In a scope for a destination and its sources, the pool has the rest of the pool, and the
destination unless it is a source. -/
theorem scopeFor {rd : Register} {sources : List Register}
    (h : ∀ p : RegisterSet, (∀ a, (s.pool.contains a ∨ a.isGeneral ∧ a.code = rd.code) →
        (∀ q ∈ sources, q.code ≠ a.code) → p.contains a) → e.Decides (emitted s [] p) P) :
    (scopeFor rd sources e).Decides s P := by
  have rest : ∀ a, s.pool.contains a → (∀ q ∈ sources, q.code ≠ a.code) →
      (s.pool.eraseMany sources).contains a :=
    fun a ha other => RegisterSet.contains_eraseMany_iff.2 ⟨ha, other⟩
  refine scope (reserve_bind ?_)
  split
  · refine Meets.offer_bind (h _ fun a ha other => ?_)
    show ((s.pool.eraseMany sources).insertMany [rd]).contains a
    rw [RegisterSet.contains_insertMany, Bool.or_eq_true]
    rcases ha with ha | ⟨general, code⟩
    · exact .inl (rest a ha other)
    · exact .inr (by simp [general, code])
  · next source =>
    refine h _ fun a ha other => ?_
    rcases ha with ha | ⟨general, code⟩
    · exact rest a ha other
    · refine absurd (List.all_eq_true.2 fun q hq => ?_) source
      exact decide_eq_true (code ▸ other q hq)

end Decides

end Emit

/-! ## Additions of immediates -/

/-- The field of an immediate has 12 bits. -/
theorem Immediate.lt_of_addSub? {imm : Int} {imm12 : Nat} {shifted : Bool}
    (h : addSub? imm = some (imm12, shifted)) : imm12 < 4096 := by
  unfold addSub? at h
  split at h
  · cases h
    omega
  · split at h
    · cases h
      omega
    · cases h

namespace AddSub

variable {op : AddSubOp} {rd rn rm : Register}

/-- At 64 bits every immediate has a form that holds it, with fields in range, or none. -/
theorem immediateForm?_cases (op : AddSubOp) (rn : Register) (hwide : rd.is64) (imm : Int) :
    immediateForm? op rd rn imm = .ok none ∨
      allowsStack op rd rn ∧ ∃ op' imm12 shifted, (op' = op ∨ op' = op.dual) ∧ imm12 < 4096 ∧
        immediateForm? op rd rn imm = .ok (some (.addSubImmediate op' rd rn imm12 shifted)) := by
  have width : rd.width = 64 := by rw [Register.width, if_pos hwide]
  have value : Immediate.atWidth? imm rd.width = some imm := by
    rw [width, Immediate.atWidth?, if_pos rfl]
  rw [immediateForm?, value]
  dsimp only
  by_cases hallows : allowsStack op rd rn
  · rw [hallows]
    simp only [Bool.not_true, Bool.false_eq_true, if_false]
    split
    · next imm12 shifted fits =>
      exact .inr ⟨trivial, op, imm12, shifted, .inl rfl, Immediate.lt_of_addSub? fits, rfl⟩
    · split
      · exact .inl rfl
      · next hne =>
        have negated : Fault.ofTrap (Immediate.negate imm) = .ok (-imm) := by
          rw [Immediate.negate_eq (width ▸ hne)]
          rfl
        rw [negated, ok_bind]
        split
        · next imm12 shifted fits =>
          exact .inr ⟨trivial, op.dual, imm12, shifted, .inr rfl,
            Immediate.lt_of_addSub? fits, rfl⟩
        · exact .inl rfl
  · rw [Bool.eq_false_iff.2 hallows]
    exact .inl rfl

/-- An addition of an immediate passes its checks if neither register is the zero register. -/
theorem check_addSubImmediate (hallows : allowsStack op rd rn) (hflags : op.setsFlags = false)
    (hwidth : rd.is64 = rn.is64) {imm12 : Nat} (himm : imm12 < 4096) (shifted : Bool) :
    (Form.addSubImmediate op rd rn imm12 shifted).check = .ok () := by
  simp only [allowsStack, hflags, Bool.false_or, Bool.and_eq_true] at hallows
  simp only [Form.check, Form.checkDestination, Form.checkWidths, hflags, Bool.false_eq_true,
    if_false, bind_eq_ok_iff, require_eq_ok_iff, decide_eq_true_eq]
  exact ⟨himm, hallows.1, hallows.2, hwidth⟩

/-- A register can be added unless the stack pointer is added to the zero register, or the other
way around. -/
theorem exists_registerForm? (hflags : op.setsFlags = false) (hwide : rd.is64)
    (hwidth : rd.is64 = rn.is64) (hstack : rd.isStack ∨ rn.isStack → allowsStack op rd rn)
    (hrm : rm.isStack = false) (hview : rm.is64 = rd.is64) :
    ∃ f, registerForm? op rd rn (.register rm) = some f ∧ f.check = .ok () := by
  have width : 0 < rd.width := rd.width_pos
  show ∃ f, shiftedForm? op rd rn rm .lsl 0 = some f ∧ _
  by_cases stack : rd.isStack ∨ rn.isStack
  · have hallows := hstack stack
    refine ⟨.addSubExtended op rd rn rm .uxtx 0, ?_, ?_⟩
    · simp [shiftedForm?, hrm, stack, hallows, hwide]
    · simp only [allowsStack, hflags, Bool.false_or, Bool.and_eq_true] at hallows
      simp [Form.check, Form.checkDestination, Form.checkWidths, hflags, hrm, hwidth, hallows,
        bind_eq_ok_iff, require_eq_ok_iff]
  · simp only [not_or, Bool.not_eq_true] at stack
    refine ⟨.addSubShifted op rd rn rm .lsl 0, ?_, ?_⟩
    · simp [shiftedForm?, hrm, stack, width]
    · simp [Form.check, Form.checkWidths, hrm, stack, width, hview, hwidth, bind_eq_ok_iff,
        require_eq_ok_iff]

end AddSub

namespace Emit

variable {s : Emitter} {rd rn : Register}

/-- Every immediate is moved to a general-purpose register of 64 bits. -/
theorem decides_movImmediate (hrd : rd.isGeneral) (hwide : rd.is64) (imm : Int) :
    (movImmediate rd imm).Decides s True := by
  have emit : movImmediate rd imm = lift (Move.immediateForms rd imm) >>= forms :=
    if_neg (by simp [Register.isStack_of_isGeneral hrd])
  have admitted : Immediate.atWidth? imm rd.width = some imm := by
    rw [Register.width, if_pos hwide, Immediate.atWidth?, if_pos rfl]
  rcases Move.immediateForms_cases rd imm with ⟨imm', -, fs, hfs, selects⟩ | ⟨none, -⟩
  · have check := (Move.materializes_of_selects hrd selects).check
    rw [emit]
    refine Decides.lift_bind hfs (Meets.forms trivial fun f hf y hy => ?_)
    rw [check f hf] at hy
    cases hy
  · rw [admitted] at none
    cases none

/-- Every immediate is added through a scratch register, which may be the destination unless that is
the source. -/
theorem decides_addSubThroughScratch (hrd : rd.is64) (hwidth : rd.is64 = rn.is64)
    (hstack : rd.isStack ∨ rn.isStack → AddSub.allowsStack .add rd rn)
    (hpool : ∃ a, (s.pool.contains a ∨ a.isGeneral ∧ a.code = rd.code) ∧ rn.code ≠ a.code)
    (offset : Int) :
    (addSubThroughScratch .add rd rn (.immediate offset)).Decides s True := by
  obtain ⟨a, ha, other⟩ := hpool
  refine Decides.scopeFor fun p hp => ?_
  refine .acquire_bind ⟨a, hp a ha (List.forall_mem_singleton.2 other)⟩
    fun temp hgeneral _ hview => ?_
  have htemp : temp.is64 = rd.is64 := by rw [Register.is64, hview]; rfl
  obtain ⟨f, hf, check⟩ := AddSub.exists_registerForm? rfl hrd hwidth hstack
    (Register.isStack_of_isGeneral hgeneral) htemp
  refine ((decides_movImmediate hgeneral (htemp.trans hrd) offset).bind fun t => ?_).congr
    and_self_iff
  simp only [hf]
  exact Decides.terminal.congr (iff_true_intro check)

/-- **Additions of immediates are refused for capabilities only**, at 64 bits: if the registers are
no capabilities, every immediate has a form or is moved to a scratch register. -/
theorem decides_addSub (hrd : rd.is64) (hrn : rn.is64)
    (hstack : rd.isStack ∨ rn.isStack → AddSub.allowsStack .add rd rn)
    (hpool : ∃ a, (s.pool.contains a ∨ a.isGeneral ∧ a.code = rd.code) ∧ rn.code ≠ a.code)
    (offset : Int) :
    (addSub .add rd rn (.immediate offset)).Decides s
      (rd.isCapability = false ∧ rn.isCapability = false) := by
  have hwidth : rd.is64 = rn.is64 := hrd.trans hrn.symm
  refine (Decides.require_bind fun _ => .require_bind fun _ => .require_bind (Q := True)
    fun _ => ?_).congr ?_
  · rcases AddSub.immediateForm?_cases .add rn hrd offset with none |
      ⟨hallows, op, imm12, shifted, hop, himm, some⟩
    · exact Decides.lift_bind none (decides_addSubThroughScratch hrd hwidth hstack hpool offset)
    · have check : (Form.addSubImmediate op rd rn imm12 shifted).check = .ok () := by
        rcases hop with rfl | rfl
        · exact AddSub.check_addSubImmediate hallows rfl hwidth himm shifted
        · exact AddSub.check_addSubImmediate hallows rfl hwidth himm shifted
      exact Decides.lift_bind some (Decides.terminal.congr (iff_true_intro check))
  · simp [hwidth, AddSubOp.setsFlags]

end Emit

/-! ## Loads and stores -/

/-- The addressing mode in which an offset is used. -/
def IndexMode.operand (mode : IndexMode) (base : Register) (offset : Int) : MemOperand :=
  match mode with
  | .unscaled => .offset base offset
  | .preIndex => .preIndex base offset
  | .postIndex => .postIndex base offset

namespace LoadStore

variable {op : LoadStoreOp} {rt base : Register} {mode : IndexMode} {offset : Int}

/-- Whether a form holds an offset: nine bits with a sign, or twelve bits without one that are
scaled by the size of the access. -/
def Holds (op : LoadStoreOp) (rt : Register) (mode : IndexMode) (offset : Int) : Prop :=
  Immediate.isUnscaledOffset offset ∨
    mode = .unscaled ∧ 0 ≤ offset ∧ offset % 2 ^ op.sizeLog2 rt = 0 ∧
      offset / 2 ^ op.sizeLog2 rt < 4096

/-- Whether registers are permitted, as far as that does not depend on the offset: the base has 64
bits, the transfer register is not written back to, and the access has it. -/
@[mk_iff]
structure Permits (op : LoadStoreOp) (rt base : Register) (mode : IndexMode) : Prop where
  wide : base.is64
  separate : mode ≠ .unscaled → rt.code ≠ base.code
  transfer : Form.checkTransfer op rt = .ok ()

/-- Whether a load or store is accepted. A form needs a base that is not the zero register. The
sequence needs a base that can be added to, and unless it accesses a scratch register, the base is
not the zero register either. -/
@[mk_iff]
structure Accepts (op : LoadStoreOp) (rt base : Register) (mode : IndexMode) (offset : Int) : Prop
    extends Permits op rt base mode where
  held : Holds op rt mode offset → base.isZero = false
  added : ¬ Holds op rt mode offset → base.isCapability = false ∧
    (mode ≠ .unscaled → base.isZero = false)

/-- Where a form holds the offset, the base may be of any view but not the zero register. -/
theorem accepts_of_holds (h : Holds op rt mode offset) :
    Accepts op rt base mode offset ↔ Permits op rt base mode ∧ base.isZero = false := by
  simp only [accepts_iff, h, not_true_eq_false, false_implies, true_implies, and_true]

/-- Where no form holds the offset, the base is not a capability, and it is not the zero register
either if it is written back to. -/
theorem accepts_of_not_holds (h : ¬ Holds op rt mode offset) :
    Accepts op rt base mode offset ↔ Permits op rt base mode ∧ base.isCapability = false ∧
      (mode ≠ .unscaled → base.isZero = false) := by
  simp only [accepts_iff, h, not_false_eq_true, false_implies, true_implies, true_and]

/-- Every form holds the offset zero. -/
theorem holds_zero (op : LoadStoreOp) (rt : Register) (mode : IndexMode) : Holds op rt mode 0 :=
  .inl rfl

/-- No form holds an offset past the greatest one of accesses of 8 bytes. -/
theorem not_holds_far (op : LoadStoreOp) (rt : Register) (mode : IndexMode) :
    ¬ Holds op rt mode (2 ^ 15) := by
  rintro (near | ⟨-, -, -, scaled⟩)
  · cases near
  · have size : op.sizeLog2 rt = 0 ∨ op.sizeLog2 rt = 1 ∨ op.sizeLog2 rt = 2 ∨
        op.sizeLog2 rt = 3 := by
      have := op.sizeLog2_lt rt
      omega
    rcases size with h | h | h | h <;> rw [h] at scaled <;> omega

/-- **When acceptance depends on the offset**: if the base is accepted by the forms and not by the
sequence, or the other way around. -/
theorem exists_accepts_and_not_iff :
    (∃ a b : Int, (-2 ^ 63 ≤ a ∧ a < 2 ^ 63) ∧ (-2 ^ 63 ≤ b ∧ b < 2 ^ 63) ∧
        Accepts op rt base mode a ∧ ¬ Accepts op rt base mode b) ↔
      Permits op rt base mode ∧
        if base.isZero then mode = .unscaled ∧ base.isCapability = false
        else base.isCapability := by
  have near : Accepts op rt base mode 0 ↔ _ := accepts_of_holds (holds_zero op rt mode)
  have far : Accepts op rt base mode (2 ^ 15) ↔ _ :=
    accepts_of_not_holds (not_holds_far op rt mode)
  constructor
  · rintro ⟨a, b, -, -, ha, hb⟩
    refine ⟨ha.toPermits, ?_⟩
    split
    · next zero =>
      -- no form accepts the zero register, so the sequence does for `a`
      have ⟨integer, changed⟩ := ha.added fun held => Bool.eq_false_iff.1 (ha.held held) zero
      exact ⟨by_contra fun hmode => Bool.eq_false_iff.1 (changed hmode) zero, integer⟩
    · next nonzero =>
      -- an ordinary base would be accepted for `b`, whether it is held or not
      by_contra integer
      have nonzero := Bool.eq_false_iff.2 nonzero
      exact hb ⟨ha.toPermits, fun _ => nonzero,
        fun _ => ⟨Bool.eq_false_iff.2 integer, fun _ => nonzero⟩⟩
  · rintro ⟨permits, h⟩
    split at h
    · next zero =>
      refine ⟨2 ^ 15, 0, by decide, by decide, far.2 ⟨permits, h.2, absurd h.1⟩, fun hall => ?_⟩
      exact absurd zero (Bool.eq_false_iff.1 (near.1 hall).2)
    · next nonzero =>
      refine ⟨0, 2 ^ 15, by decide, by decide, near.2 ⟨permits, Bool.eq_false_iff.2 nonzero⟩,
        fun hall => ?_⟩
      exact absurd h (Bool.eq_false_iff.1 (far.1 hall).2.1)

/-- In the offset mode there is a form exactly for the offsets that are held. It is accepted if the
base is not the zero register. -/
theorem offsetForm?_cases (op : LoadStoreOp) (rt base : Register) (offset : Int) :
    (¬ Holds op rt .unscaled offset ∧ offsetForm? op rt base offset = .ok none) ∨
      Holds op rt .unscaled offset ∧ ∃ f, offsetForm? op rt base offset = .ok (some f) ∧
        (f.check = .ok () ↔ Form.checkTransfer op rt = .ok () ∧ base.isZero = false) := by
  rw [offsetForm?_eq]
  split
  · next scaled =>
    refine .inr ⟨.inr ⟨rfl, scaled⟩, _, rfl, check_loadStoreUnsigned_iff.trans ?_⟩
    have fits : (offset / 2 ^ op.sizeLog2 rt).toNat < 4096 := by omega
    simp only [fits, true_and]
  · next unscaled =>
    split
    · next near =>
      refine .inr ⟨.inl near, _, rfl, check_loadStoreIndexed_iff.trans ?_⟩
      simp only [near, true_and, true_or, and_true]
    · next far =>
      exact .inl ⟨fun held => held.elim far fun h => unscaled h.2, rfl⟩

/-- The other modes hold the offsets of nine bits. -/
theorem indexedForm?_cases (hmode : mode ≠ .unscaled) (op : LoadStoreOp) (rt base : Register)
    (offset : Int) :
    (¬ Holds op rt mode offset ∧ indexedForm? op rt base offset mode = none) ∨
      Holds op rt mode offset ∧ ∃ f, indexedForm? op rt base offset mode = some f ∧
        (f.check = .ok () ↔
          Form.checkTransfer op rt = .ok () ∧ base.isZero = false ∧ rt.code ≠ base.code) := by
  unfold indexedForm?
  split
  · next near =>
    refine .inr ⟨.inl near, _, rfl, check_loadStoreIndexed_iff.trans ?_⟩
    simp only [near, true_and, hmode, false_or]
  · next far =>
    exact .inl ⟨fun held => held.elim far fun h => hmode h.1, rfl⟩

end LoadStore

namespace Emit

variable {s : Emitter} {op : LoadStoreOp} {rt base : Register} {mode : IndexMode}

/-- An access through a scratch register checks the transfer register, and that the base can be
added to. -/
theorem decides_accessThroughScratch (hwide : base.is64)
    (hpool : ∃ a, s.pool.contains a ∧ rt.code ≠ a.code ∧ base.code ≠ a.code) (offset : Int) :
    (accessThroughScratch op rt base [base, rt] (.immediate offset)).Decides s
      (base.isCapability = false ∧ Form.checkTransfer op rt = .ok ()) := by
  obtain ⟨a, ha, hrt, hbase⟩ := hpool
  have member : (s.pool.eraseMany [base, rt]).contains a :=
    RegisterSet.contains_eraseMany_iff.2 ⟨ha, by simp [hrt, hbase]⟩
  refine .scope (.reserve_bind (.acquire_bind ⟨a, member⟩ fun temp hgeneral htemp hview => ?_))
  have hzero := Register.isZero_of_isGeneral hgeneral
  have hstack := Register.isStack_of_isGeneral hgeneral
  have other : base.code ≠ temp.code :=
    (RegisterSet.contains_eraseMany_iff.1 htemp).2 base (.head _)
  refine ((decides_addSub ?_ hwide ?_ ⟨temp, .inr ⟨hgeneral, rfl⟩, other⟩ offset).bind
    fun t => .terminal).congr ?_
  · rw [Register.is64, hview]
    rfl
  · intro stack
    have hbase := Register.isZero_of_isStack (stack.resolve_left (by simp [hstack]))
    simp [AddSub.allowsStack, hbase, hzero]
  · rw [LoadStore.check_loadStoreUnsigned_iff, Register.isCapability, hview]
    simp [hzero]

/-- The base is changed if it can be added to. -/
theorem decides_updateBase (hwide : base.is64)
    (hpool : ∃ a, s.pool.contains a ∧ rt.code ≠ a.code ∧ base.code ≠ a.code) (offset : Int) :
    (updateBase rt base offset).Decides s (base.isCapability = false) := by
  obtain ⟨a, ha, hrt, hbase⟩ := hpool
  have member : (s.pool.eraseMany [rt]).contains a :=
    RegisterSet.contains_eraseMany_iff.2 ⟨ha, by simpa using hrt⟩
  have hstack : base.isStack ∨ base.isStack → AddSub.allowsStack .add base base := by
    intro stack
    simp [AddSub.allowsStack, Register.isZero_of_isStack (or_self_iff.1 stack)]
  refine Decides.scope (Decides.reserve_bind (Decides.congr (decides_addSub hwide hwide hstack
    ?_ offset) and_self_iff))
  exact ⟨a, .inl member, hbase⟩

/-- The offset mode has a form, or accesses a scratch register. Either way the transfer register is
checked. -/
theorem decides_offset (hwide : base.is64)
    (hpool : ∃ a, s.pool.contains a ∧ rt.code ≠ a.code ∧ base.code ≠ a.code) (offset : Int) :
    Decides (do
      match ← lift (LoadStore.offsetForm? op rt base offset) with
      | some f => terminal f
      | none => accessThroughScratch op rt base [base, rt] (.immediate offset)) s
      (Form.checkTransfer op rt = .ok () ∧
        (LoadStore.Holds op rt .unscaled offset → base.isZero = false) ∧
        (¬ LoadStore.Holds op rt .unscaled offset → base.isCapability = false)) := by
  rcases LoadStore.offsetForm?_cases op rt base offset with ⟨far, none⟩ | ⟨held, f, some, check⟩
  · have access := @decides_accessThroughScratch s op rt base hwide hpool offset
    exact Decides.lift_bind none (access.congr (by tauto))
  · exact Decides.lift_bind some (Decides.terminal.congr (check.trans (by tauto)))

/-- A mode that changes the base has a form, or changes the base apart from the access. Either way
the transfer register is checked, and that the base is not the zero register. -/
theorem decides_indexed (hmode : mode ≠ .unscaled) (hseparate : rt.code ≠ base.code)
    {offset : Int} {e : Emit Unit}
    (he : e.Decides s (base.isCapability = false ∧ Form.checkTransfer op rt = .ok () ∧
      base.isZero = false)) :
    Decides (match LoadStore.indexedForm? op rt base offset mode with
      | some f => terminal f
      | none => e) s (Form.checkTransfer op rt = .ok () ∧ base.isZero = false ∧
        (¬ LoadStore.Holds op rt mode offset → base.isCapability = false)) := by
  rcases LoadStore.indexedForm?_cases hmode op rt base offset with ⟨far, none⟩ |
    ⟨held, f, some, check⟩
  · rw [none]
    exact he.congr (by tauto)
  · rw [some]
    exact Decides.terminal.congr (check.trans (by tauto))

/-- An access without an offset, with the base changed before or after it. -/
theorem decides_updateBase_access (hwide : base.is64)
    (hpool : ∃ a, s.pool.contains a ∧ rt.code ≠ a.code ∧ base.code ≠ a.code) (offset : Int) :
    (updateBase rt base offset >>= fun _ => terminal (.loadStoreUnsigned op rt base 0)).Decides s
        (base.isCapability = false ∧ Form.checkTransfer op rt = .ok () ∧ base.isZero = false) ∧
      (terminal (.loadStoreUnsigned op rt base 0) >>= fun _ => updateBase rt base offset).Decides s
        (base.isCapability = false ∧ Form.checkTransfer op rt = .ok () ∧ base.isZero = false) := by
  have check : (Form.loadStoreUnsigned op rt base 0).check = .ok () ↔
      Form.checkTransfer op rt = .ok () ∧ base.isZero = false := by
    simp [LoadStore.check_loadStoreUnsigned_iff]
  constructor
  · exact ((decides_updateBase hwide hpool offset).bind fun t => .terminal).congr
      (and_congr_right' check)
  · refine (Decides.terminal_bind fun t ht => decides_updateBase hwide ?_ offset).congr
      (and_comm.trans (and_congr_right' check))
    rwa [ht]

/-- A load or store returns exactly if it is accepted. -/
theorem decides_loadStore
    (hpool : ∃ a, s.pool.contains a ∧ rt.code ≠ a.code ∧ base.code ≠ a.code) (offset : Int) :
    (loadStore op rt (mode.operand base offset)).Decides s
      (LoadStore.Accepts op rt base mode offset) := by
  rw [LoadStore.accepts_iff, LoadStore.permits_iff]
  cases mode with
  | unscaled =>
    refine (Decides.require_bind fun hwide => .require_bind fun _ =>
      decides_offset hwide hpool offset).congr ?_
    simp only [IndexMode.operand, MemOperand.writesBack, Bool.not_false, Bool.true_or]
    tauto
  | preIndex =>
    have indexed : IndexMode.preIndex ≠ .unscaled := by decide
    refine (Decides.require_bind fun hwide => .require_bind fun hseparate =>
      decides_indexed indexed (of_decide_eq_true hseparate)
        (decides_updateBase_access hwide hpool offset).1).congr ?_
    rw [decide_eq_true_iff]
    tauto
  | postIndex =>
    have indexed : IndexMode.postIndex ≠ .unscaled := by decide
    refine (Decides.require_bind fun hwide => .require_bind fun hseparate =>
      decides_indexed indexed (of_decide_eq_true hseparate)
        (decides_updateBase_access hwide hpool offset).2).congr ?_
    rw [decide_eq_true_iff]
    tauto

end Emit

/-! ## Operations -/

namespace Operation

variable {s : Emitter} {op : LoadStoreOp} {rt base : Register} {mode : IndexMode}

/-- **Which loads and stores are accepted.** Let the pool have a register that is neither the
transfer register nor the base.

* A load or store with an offset returns exactly if it is accepted, in all three modes.
* Whether it does depends on the offset for two kinds of bases. The zero register is accepted in the
  offset mode, with the offsets that no form holds. A capability is accepted in all modes, with the
  offsets that a form holds.

**Proof sketch.** A step of the emission returns under a condition, and the steps under all of their
conditions (`AArch64.Emit.Decides.bind`). A pool with one more register is enough for the address
and for the immediates that are moved to get it (`AArch64.Emit.decides_addSub`). What is left are
the checks of the forms and of the addition, and only those of the base differ. -/
theorem accepts_emit
    (hpool : ∃ a, s.pool.contains a ∧ rt.code ≠ a.code ∧ base.code ≠ a.code) :
    (∀ offset : Int, ((loadStore op rt (mode.operand base offset)).emit.apply s).1 = .ok () ↔
      LoadStore.Accepts op rt base mode offset) ∧
    ((∃ a b : Int, (-2 ^ 63 ≤ a ∧ a < 2 ^ 63) ∧ (-2 ^ 63 ≤ b ∧ b < 2 ^ 63) ∧
        ((loadStore op rt (mode.operand base a)).emit.apply s).1 = .ok () ∧
        ¬ ((loadStore op rt (mode.operand base b)).emit.apply s).1 = .ok ()) ↔
      LoadStore.Permits op rt base mode ∧
        if base.isZero then mode = .unscaled ∧ base.isCapability = false
        else base.isCapability) := by
  have returns : ∀ offset : Int,
      ((loadStore op rt (mode.operand base offset)).emit.apply s).1 = .ok () ↔
        LoadStore.Accepts op rt base mode offset :=
    fun offset => (Emit.decides_loadStore hpool offset).returns_iff
  simp only [returns, LoadStore.exists_accepts_and_not_iff, implies_true, and_self]

/-- Every offset from an ordinary base is accepted. From the zero register some are and some are
not. -/
theorem accepts_emit_bases :
    (∃ a, (Emitter.new .a64).pool.contains a ∧ (⟨0, .x⟩ : Register).code ≠ a.code ∧
      (⟨1, .x⟩ : Register).code ≠ a.code) ∧
    (∃ a, (Emitter.new .a64).pool.contains a ∧ (⟨0, .x⟩ : Register).code ≠ a.code ∧
      (Register.zero .x).code ≠ a.code) ∧
    (∀ offset : Int, ((loadStore .ldr ⟨0, .x⟩ (.preIndex ⟨1, .x⟩ offset)).emit.apply
      (.new .a64)).1 = .ok ()) ∧
    ∃ a b : Int, (-2 ^ 63 ≤ a ∧ a < 2 ^ 63) ∧ (-2 ^ 63 ≤ b ∧ b < 2 ^ 63) ∧
      ((loadStore .ldr ⟨0, .x⟩ (.offset (.zero .x) a)).emit.apply (.new .a64)).1 = .ok () ∧
      ¬ ((loadStore .ldr ⟨0, .x⟩ (.offset (.zero .x) b)).emit.apply (.new .a64)).1 = .ok () := by
  have ordinary : ∃ a, (Emitter.new .a64).pool.contains a ∧ (⟨0, .x⟩ : Register).code ≠ a.code ∧
      (⟨1, .x⟩ : Register).code ≠ a.code := ⟨⟨16, .x⟩, by decide⟩
  have zero : ∃ a, (Emitter.new .a64).pool.contains a ∧ (⟨0, .x⟩ : Register).code ≠ a.code ∧
      (Register.zero .x).code ≠ a.code := ⟨⟨16, .x⟩, by decide⟩
  refine ⟨ordinary, zero, fun offset => ?_, ?_⟩
  · have accepts := @accepts_emit (.new .a64) .ldr ⟨0, .x⟩ ⟨1, .x⟩ .preIndex ordinary
    refine (accepts.1 offset).2 ?_
    exact { wide := rfl, separate := fun _ => by decide, transfer := rfl, held := fun _ => rfl,
            added := fun _ => ⟨rfl, fun _ => rfl⟩ }
  · have accepts := @accepts_emit (.new .a64) .ldr ⟨0, .x⟩ (.zero .x) .unscaled zero
    refine accepts.2.2 ⟨?_, ?_⟩
    · exact { wide := rfl, separate := absurd rfl, transfer := rfl }
    · exact ⟨rfl, rfl⟩

/-- The zero register is refused without an offset and accepted with a great one. For a capability
it is the other way around. -/
theorem accepts_emit_dependent :
    (Register.zero .x).IsBuilt ∧ Register.IsBuilt ⟨1, .c⟩ ∧ Register.IsBuilt ⟨0, .x⟩ ∧
    (Emitter.new .a64).pool.contains ⟨16, .x⟩ ∧ (Emitter.new .a64).pool.contains ⟨17, .x⟩ ∧
    ((loadStore .ldr ⟨0, .x⟩ (.offset (.zero .x) 0)).emit.apply (.new .a64)).1 =
      .error (.rejected .zeroBase) ∧
    ((loadStore .ldr ⟨0, .x⟩ (.offset (.zero .x) (2 ^ 20))).emit.apply (.new .a64)).1 = .ok () ∧
    ((loadStore .ldr ⟨0, .x⟩ (.offset ⟨1, .c⟩ 0)).emit.apply (.new .a64)).1 = .ok () ∧
    ((loadStore .ldr ⟨0, .x⟩ (.offset ⟨1, .c⟩ (2 ^ 20))).emit.apply (.new .a64)).1 =
      .error (.rejected .integerOnCapability) :=
  ⟨Register.isBuilt_zero .x, Register.isBuilt_of_isGeneral rfl, Register.isBuilt_of_isGeneral rfl,
    rfl, rfl, rfl, rfl, rfl, rfl⟩

end Operation

end AArch64
