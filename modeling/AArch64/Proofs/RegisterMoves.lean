import AArch64.Proofs.Moves

/-!
# Moves of registers

A shift or an extension is one instruction that leaves the shifted or extended value of its source
in its destination. It is emitted unless it shifts by the width of the destination or more, or its
source or destination is the stack pointer. A plain move reaches the stack pointer as well, the zero
register through a register of the pool.

## Main results

* `AArch64.Move.returns_shiftForm_iff`, `AArch64.Move.returns_extendForm_iff` — which shifts and
  extensions have a form that passes its checks.
* `AArch64.Emit.runs_movRegister` — a plain move copies, to every destination.
* `AArch64.Operation.mov_emit` — what moves of registers do, and which of them fail.
-/

set_option autoImplicit false

namespace AArch64

/-! ## Forms of shifts and extensions -/

namespace Form

variable {rd rn : Register}

/-- What a bitfield move checks, if its source is read in the view of its destination. -/
theorem check_bitfield_iff {op : BitfieldOp} {immr imms : Nat} :
    (bitfield op rd (rn.withView rd.view) immr imms).check = .ok () ↔
      (immr < rd.width ∧ imms < rd.width) ∧ rd.isStack = false ∧ rn.isStack = false := by
  have width : (rn.withView rd.view).is64 = rd.is64 := rfl
  have stack : (rn.withView rd.view).isStack = rn.isStack := rfl
  simp only [check, checkWidths, bind_eq_ok_iff, require_eq_ok_iff, decide_eq_true_eq,
    Bool.and_eq_true, Bool.not_eq_true', width, stack, and_true]

/-- What an extraction from a pair of equal registers checks. -/
theorem check_extract_iff {lsb : Nat} :
    (extract rd (rn.withView rd.view) (rn.withView rd.view) lsb).check = .ok () ↔
      lsb < rd.width ∧ rd.isStack = false ∧ rn.isStack = false := by
  have width : (rn.withView rd.view).is64 = rd.is64 := rfl
  have stack : (rn.withView rd.view).isStack = rn.isStack := rfl
  simp only [check, checkWidths, bind_eq_ok_iff, require_eq_ok_iff, decide_eq_true_eq,
    Bool.and_eq_true, Bool.not_eq_true', width, stack, and_true, and_assoc, and_self]

end Form

namespace Move

variable {rd rn : Register} {amount : Nat}

/-- The form that shifts to the left passes its checks. -/
theorem check_leftShift (hamount : amount < rd.width) (hrd : rd.isStack = false)
    (hrn : rn.isStack = false) :
    (Form.bitfield .ubfm rd (rn.withView rd.view) ((rd.width - amount) % rd.width)
      (rd.width - 1 - amount)).check = .ok () :=
  Form.check_bitfield_iff.2 ⟨⟨Nat.mod_lt _ rd.width_pos, by omega⟩, hrd, hrn⟩

/-- Which shifts have a form that passes its checks. -/
theorem returns_shiftForm_iff {shift : Shift} :
    (∃ f, shiftForm rd rn shift amount = .ok f ∧ f.check = .ok ()) ↔
      amount < rd.width ∧ rn.isStack = false ∧ rd.isStack = false := by
  constructor
  · rintro ⟨f, hf, hcheck⟩
    obtain ⟨hamount, hrn, ⟨op, immr, imms, rfl⟩ | ⟨-, rfl⟩⟩ := cases_of_shiftForm hf
    · exact ⟨hamount, hrn, (Form.check_bitfield_iff.1 hcheck).2.1⟩
    · exact ⟨hamount, hrn, (Form.check_extract_iff.1 hcheck).2.1⟩
  · rintro ⟨hamount, hrn, hrd⟩
    have last : rd.width - 1 < rd.width := by
      have := rd.width_pos
      omega
    rw [shiftForm, decide_eq_true hamount, hrn]
    cases shift with
    | lsl => exact ⟨_, leftShift_eq hamount, check_leftShift hamount hrd hrn⟩
    | lsr => exact ⟨_, rfl, Form.check_bitfield_iff.2 ⟨⟨hamount, last⟩, hrd, hrn⟩⟩
    | asr => exact ⟨_, rfl, Form.check_bitfield_iff.2 ⟨⟨hamount, last⟩, hrd, hrn⟩⟩
    | ror => exact ⟨_, rfl, Form.check_extract_iff.2 ⟨hamount, hrd, hrn⟩⟩

/-- Which extensions have a form that passes its checks. -/
theorem returns_extendForm_iff {extend : Extend} :
    (∃ f, extendForm rd rn extend amount = .ok f ∧ f.check = .ok ()) ↔
      amount < rd.width ∧ rn.isStack = false ∧ rd.isStack = false := by
  constructor
  · rintro ⟨f, hf, hcheck⟩
    obtain ⟨hamount, hrn, op, immr, imms, rfl⟩ := exists_of_extendForm hf
    exact ⟨hamount, hrn, (Form.check_bitfield_iff.1 hcheck).2.1⟩
  · rintro ⟨hamount, hrn, hrd⟩
    have last : min (extend.sourceBits - 1) (rd.width - 1) < rd.width := by
      have := rd.width_pos
      omega
    rw [extendForm, decide_eq_true hamount, hrn, Bits.difference_of_le hamount.le]
    by_cases shift : extend.sourceBits = 64 ∨ ((rd.width - amount) % rd.width ≠ 0 ∧
        (rd.width - amount) % rd.width < extend.sourceBits)
    · refine ⟨_, (if_pos shift).trans (leftShift_eq hamount), check_leftShift hamount hrd hrn⟩
    · refine ⟨_, (if_neg shift).trans rfl, Form.check_bitfield_iff.2 ⟨⟨?_, last⟩, hrd, hrn⟩⟩
      exact Nat.mod_lt _ rd.width_pos

/-- Which copies of a register other than the zero register have a form that passes its checks: the
stack pointer cannot be copied to the zero register, which the addition reads as the stack
pointer. -/
theorem check_registerForm_iff (hrn : rn.isZero = false) :
    (registerForm rd rn).check = .ok () ↔ ¬ (rd.isZero ∧ rn.isStack) := by
  have width : (rn.withView rd.view).is64 = rd.is64 := rfl
  have stack : (rn.withView rd.view).isStack = rn.isStack := rfl
  have zero : (rn.withView rd.view).isZero = rn.isZero := rfl
  have zeroWidth : (Register.zero rd.view).is64 = rd.is64 := rfl
  have zeroStack : (Register.zero rd.view).isStack = false := rfl
  have pos := rd.width_pos
  unfold registerForm
  cases hrd : rd.isStack with
  | true =>
    have other := Register.isZero_of_isStack hrd
    simp [Form.check, Form.checkWidths, Form.checkDestination, AddSubOp.setsFlags, bind_eq_ok_iff,
      require_eq_ok_iff, width, zero, hrn, other]
  | false =>
    cases hstack : rn.isStack with
    | true =>
      simp [Form.check, Form.checkWidths, Form.checkDestination, AddSubOp.setsFlags,
        bind_eq_ok_iff, require_eq_ok_iff, stack, width, zero, hrn, hstack]
    | false =>
      simp [Form.check, Form.checkWidths, bind_eq_ok_iff, require_eq_ok_iff, stack, width,
        zeroWidth, zeroStack, hrd, hstack, pos]

end Move

/-! ## Emissions -/

namespace Emit

variable {s s' : Emitter} {m : Machine} {rd rn : Register} {x : Except Fault Form}

/-- The form that is chosen is emitted. -/
theorem apply_lift_terminal (x : Except Fault Form) (s : Emitter) :
    (lift x >>= terminal).apply s = match x with
      | .ok f => (form f).apply s
      | .error y => (.error y, s) := by
  rw [apply_bind]
  cases x with
  | ok f => exact congrArg (fun e : Emit Unit => e.apply s) (terminal_eq f)
  | error y => rfl

/-- The emission of a form that is chosen faults if there is none, or it fails its checks. -/
theorem faults_lift_terminal_iff :
    (∃ y, ((lift x >>= terminal).apply s).1 = .error y) ↔ ¬ ∃ f, x = .ok f ∧ f.check = .ok () := by
  rw [apply_lift_terminal]
  cases x with
  | error y => simp
  | ok f =>
    simp only [apply_form]
    cases hcheck : f.check with
    | ok u => simp [hcheck]
    | error y => simp [hcheck]

/-- If it returns, it has appended the word of the form. -/
theorem exists_of_lift_terminal (h : (lift x >>= terminal).apply s = (.ok (), s')) :
    ∃ f, x = .ok f ∧ f.check = .ok () ∧ s'.code.words = s.code.words.push f.word := by
  rw [apply_lift_terminal] at h
  cases x with
  | error y => cases h
  | ok f => exact ⟨f, rfl, words_of_apply_form h⟩

/-- An immediate reaches every register, the stack pointer through a register of the pool. -/
theorem runs_movImmediate_all (hrd : rd.IsBuilt) (imm : Int) :
    (movImmediate rd imm).Runs s m fun _ _ m' =>
      ∃ m₁, m.AgreesBut (MayWrite [rd] [] s.pool) m₁ ∧
        m' = m₁.writeAt rd (BitVec.ofInt rd.width imm) := by
  cases hstack : rd.isStack with
  | false =>
    refine (runs_movImmediate hrd hstack imm).mono ?_
    rintro _ p m' ⟨-, rfl⟩
    exact ⟨m, .refl m, rfl⟩
  | true =>
    rw [movImmediate, if_pos hstack]
    refine .scope (.acquire_bind fun temp htemp general member view => ?_)
    have copy : Move.registerForm rd temp = .addSubImmediate .add rd temp 0 false := by
      rw [Move.registerForm, hstack, Register.withView, ← view]
      rfl
    have width : temp.width = rd.width := by rw [Register.width, Register.is64, view]; rfl
    have written : ∀ q : Register, q.code = temp.code → MayWrite [rd] [] s.pool q :=
      fun q code => .inr ⟨(s.pool.contains_congr code).trans member, List.forall_mem_nil _⟩
    refine .lift_bind fun fs hfs => .bind (P := fun _ _ m₁ =>
      m₁ = m.writeAt temp (BitVec.ofInt temp.width imm)) ?_ ?_
    · have within : ∀ f ∈ fs, f.Within (Eq temp) false :=
        Move.within_of_immediateForms htemp rfl hfs
      exact .forms (fun f hf => (within f hf).isBuilt)
        ⟨_, Move.executeAll_of_immediateForms m htemp hfs, rfl⟩
    · rintro _ gs p _ rfl
      refine .terminal (by simp [Form.registers, hrd, htemp]) fun _ =>
        ⟨_, copy ▸ Move.execute_registerForm _, m.writeAt temp (BitVec.ofInt temp.width imm),
          .write written _, ?_⟩
      rw [← width, Machine.readAt_writeAt_self htemp (temp.isZero_of_isGeneral general)
        temp.width_le]

/-- **A plain move copies its source** to every destination, at the width of the destination. Before
that, registers of the pool may change.

**Proof sketch.** A register other than the zero register takes one form
(`AArch64.Emit.runs_copy`). The zero register is moved as the immediate zero. -/
theorem runs_movRegister (hrd : rd.IsBuilt) (hrn : rn.IsBuilt) :
    (mov rd (.register rn)).Runs s m fun _ _ m' =>
      ∃ m₁, m.AgreesBut (MayWrite [rd] [] s.pool) m₁ ∧
        m' = m₁.writeAt rd (m.readAt rd.width rn) := by
  cases hzero : rn.isZero with
  | false =>
    refine (runs_copy hrd hrn hzero).mono ?_
    rintro _ p m' ⟨-, rfl⟩
    exact ⟨m, .refl m, rfl⟩
  | true =>
    rw [mov, if_pos hzero, Machine.readAt_of_isZero hzero]
    exact runs_movImmediate_all hrd 0

end Emit

/-! ## Operations -/

namespace Operation

variable {rd rn : Register}

/-- **Moves of registers compute their operands.** For all registers:

* whenever a plain move returns, its words leave the source in the destination, at the width of the
  destination with zeros above, and besides change registers of the pool only; unless the source is
  the zero register, it fails exactly if it moves the stack pointer to the zero register;
* a shift fails exactly if its amount is not below the width of the destination, or the source or
  the destination is the stack pointer; else it is one word, which leaves the shifted or rotated
  source in the destination and changes nothing else;
* an extension fails exactly in the same cases; else it is one word, which leaves the low bits of
  the source, extended and then shifted to the left, in the destination and changes nothing else.

What is written to the zero register is discarded (`AArch64.Machine.writeAt_of_isZero`).

**Proof sketch.** Below the width, every shift and every extension has a form whose fields are in
range (`AArch64.Move.returns_shiftForm_iff`, `AArch64.Move.returns_extendForm_iff`), and the form
moves the right bits (`AArch64.Move.execute_of_shiftForm`, `AArch64.Move.execute_of_extendForm`),
also if some or all of those that are extended are shifted out. -/
theorem mov_emit (hrd : rd.IsBuilt) (hrn : rn.IsBuilt) (s : Emitter) :
    ((∀ s', (mov rd (.register rn)).emit.apply s = (.ok (), s') →
        ∃ ws : List Word, s'.code.words = s.code.words ++ ws.toArray ∧
          ∀ m : Machine, ∃ m', m.run ws = some m' ∧
            (rd.isZero = false → m'.read rd = (m.readAt rd.width rn).setWidth 64) ∧
            m.AgreesBut (MayWrite [rd] [] s.pool) m') ∧
      (rn.isZero = false →
        ((∃ x, ((mov rd (.register rn)).emit.apply s).1 = .error x) ↔ rd.isZero ∧ rn.isStack))) ∧
    (∀ shift amount,
      ((∃ x, ((mov rd (.shifted rn shift amount)).emit.apply s).1 = .error x) ↔
        rd.width ≤ amount ∨ rn.isStack ∨ rd.isStack) ∧
      ∀ s', (mov rd (.shifted rn shift amount)).emit.apply s = (.ok (), s') →
        ∃ w, s'.code.words = s.code.words.push w ∧ ∀ m : Machine,
          m.step w = some (m.writeAt rd (shift.apply (m.readAt rd.width rn) amount))) ∧
    ∀ extend amount,
      ((∃ x, ((mov rd (.extended rn extend amount)).emit.apply s).1 = .error x) ↔
        rd.width ≤ amount ∨ rn.isStack ∨ rd.isStack) ∧
      ∀ s', (mov rd (.extended rn extend amount)).emit.apply s = (.ok (), s') →
        ∃ w, s'.code.words = s.code.words.push w ∧ ∀ m : Machine,
          m.step w = some (m.writeAt rd (extend.apply rd.width (m.read rn) <<< amount)) := by
  have destination : ∀ q : Register, q.code = rd.code → MayWrite [rd] [] s.pool q :=
    fun q code => .inl ⟨rd, .head _, code.symm⟩
  have misfits : ∀ {amount : Nat},
      ¬ (amount < rd.width ∧ rn.isStack = false ∧ rd.isStack = false) ↔
        rd.width ≤ amount ∨ rn.isStack ∨ rd.isStack := by
    intro amount
    rw [not_and_or, not_and_or, Nat.not_lt, Bool.not_eq_false, Bool.not_eq_false]
  refine ⟨⟨fun s' h => ?_, fun hzero => ?_⟩, fun shift amount => ⟨?_, fun s' h => ?_⟩,
    fun extend amount => ⟨?_, fun s' h => ?_⟩⟩
  · obtain ⟨ws, hws, runs⟩ :=
      Emit.Runs.exists_of_ok (fun m => Emit.runs_movRegister (m := m) hrd hrn) h
    refine ⟨ws, hws, fun m => ?_⟩
    obtain ⟨m', run, m₁, agrees, rfl⟩ := runs m
    exact ⟨_, run, Machine.read_write_self hrd, agrees.trans (.write destination _)⟩
  · have plain : (mov rd (.register rn)).emit = Emit.form (Move.registerForm rd rn) := by
      rw [emit, Emit.mov, hzero, ← Emit.terminal_eq]
      rfl
    rw [plain, Emit.apply_form, ← not_not (a := rd.isZero ∧ rn.isStack),
      ← Move.check_registerForm_iff hzero]
    cases (Move.registerForm rd rn).check with
    | ok u => simp
    | error y => simp
  · exact Emit.faults_lift_terminal_iff.trans ((not_congr Move.returns_shiftForm_iff).trans misfits)
  · obtain ⟨f, hf, hcheck, hwords⟩ := Emit.exists_of_lift_terminal h
    have within : f.Within (Eq rd) false := Move.within_of_shiftForm hrd hrn rfl hf
    exact ⟨f.word, hwords, fun m => (f.step_word m hcheck within.isBuilt).trans
      (Move.execute_of_shiftForm m hf)⟩
  · exact Emit.faults_lift_terminal_iff.trans
      ((not_congr Move.returns_extendForm_iff).trans misfits)
  · obtain ⟨f, hf, hcheck, hwords⟩ := Emit.exists_of_lift_terminal h
    have within : f.Within (Eq rd) false := Move.within_of_extendForm hrd hrn rfl hf
    exact ⟨f.word, hwords, fun m => (f.step_word m hcheck within.isBuilt).trans
      (Move.execute_of_extendForm m hf)⟩

/-- A byte with its sign, half of which is shifted out of a 32-bit register, the same with an amount
that is too large, and the zero register moved to the stack pointer. -/
theorem mov_emit_corners :
    (∃ w, ((mov ⟨3, .w⟩ (.extended ⟨7, .x⟩ .sxtb 28)).emit.apply (.new .a64)).2.code.words =
        (Emitter.new .a64).code.words.push w ∧
      ∀ m : Machine, m.step w =
        some (m.writeAt ⟨3, .w⟩ (Extend.sxtb.apply 32 (m.read ⟨7, .x⟩) <<< 28))) ∧
    (∃ x, ((mov ⟨3, .w⟩ (.extended ⟨7, .x⟩ .sxtb 32)).emit.apply (.new .a64)).1 = .error x) ∧
    ∃ ws : List Word, ((mov (.stack .x) (.register (.zero .x))).emit.apply
        (.new .a64)).2.code.words = (Emitter.new .a64).code.words ++ ws.toArray ∧
      ∀ m : Machine, ∃ m', m.run ws = some m' ∧ m'.stack = 0 := by
  have w3 : Register.IsBuilt ⟨3, .w⟩ := .inl ⟨3, rfl⟩
  have x7 : Register.IsBuilt ⟨7, .x⟩ := .inl ⟨7, rfl⟩
  have returns : ((mov ⟨3, .w⟩ (.extended ⟨7, .x⟩ .sxtb 28)).emit.apply (.new .a64)).1 = .ok () :=
    rfl
  have clears : ((mov (.stack .x) (.register (.zero .x))).emit.apply (.new .a64)).1 = .ok () := rfl
  obtain ⟨-, -, extensions⟩ := mov_emit w3 x7 (.new .a64)
  obtain ⟨⟨copies, -⟩, -⟩ := mov_emit (Register.isBuilt_stack .x) (Register.isBuilt_zero .x)
    (.new .a64)
  refine ⟨(extensions .sxtb 28).2 _ (Prod.ext returns rfl),
    (extensions .sxtb 32).1.2 (.inl (le_refl 32)), ?_⟩
  obtain ⟨ws, hws, runs⟩ := copies _ (Prod.ext clears rfl)
  refine ⟨ws, hws, fun m => ?_⟩
  obtain ⟨m', run, read, -⟩ := runs m
  exact ⟨m', run, read rfl⟩

end Operation

end AArch64
