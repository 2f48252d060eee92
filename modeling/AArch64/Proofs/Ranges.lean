import AArch64.Proofs.Switches
import Mathlib.Data.List.TakeWhile

/-!
# The words of a range

Decoding a range shows its words to every observer, in order, each with the instruction set that the
switches of the range put in effect at its offset. The words for which there is no room before the
end of the stream are not shown. One step of the decoder says all this of one word, and what a range
does follows from it.

## Main definitions

* `AArch64.Word.ofBytesAt` — a word of a range, by its place.
* `AArch64.Decoder.instructionAt` — what a word of a range is shown as.
* `AArch64.Decoder.room` — how many words there are before the end of the stream.

## Main results

* `AArch64.Decoder.decodeWords_cons` — what the decoder does at one word.
* `AArch64.Decoder.visits_decodeWords_take` — the visits of words with switches between them.
* `AArch64.Decoder.result_decodeWords` — what decoding them answers.
* `AArch64.Decoder.decoder_decodeWords` — where it leaves the decoder.
-/

set_option autoImplicit false

namespace AArch64

variable {ω : Type}

/-! ## Words of bytes -/

namespace Word

/-- Bytes that do not start with a word are fewer than four. -/
theorem length_lt_of_short {bytes : List (BitVec 8)}
    (short : ∀ b0 b1 b2 b3 tail, bytes = b0 :: b1 :: b2 :: b3 :: tail → False) :
    bytes.length < 4 := by
  match bytes, short with
  | [], _ => decide
  | [_], _ => simp
  | [_, _], _ => simp
  | [_, _, _], _ => simp
  | b0 :: b1 :: b2 :: b3 :: tail, short => exact (short b0 b1 b2 b3 tail rfl).elim

/-- Four bytes make one word. -/
theorem length_listOfBytes (bytes : List (BitVec 8)) :
    (listOfBytes bytes).length = bytes.length / 4 := by
  fun_induction listOfBytes bytes with
  | case1 b0 b1 b2 b3 tail ih =>
    simp only [List.length_cons, ih]
    omega
  | case2 bytes short =>
    have := length_lt_of_short short
    simp only [List.length_nil]
    omega

/-- Bytes that are whole words are words in front of others. -/
theorem listOfBytes_append {bytes rest : List (BitVec 8)} (h : bytes.length % 4 = 0) :
    listOfBytes (bytes ++ rest) = listOfBytes bytes ++ listOfBytes rest := by
  fun_induction listOfBytes bytes with
  | case1 b0 b1 b2 b3 tail ih =>
    have whole : tail.length % 4 = 0 := by
      simp only [List.length_cons] at h
      omega
    show ofBytes b0 b1 b2 b3 :: listOfBytes (tail ++ rest) = _
    rw [ih whole]
    rfl
  | case2 bytes short =>
    have := length_lt_of_short short
    obtain rfl : bytes = [] := List.length_eq_zero_iff.1 (by omega)
    rfl

/-- Up to three bytes at the end do not count. -/
theorem listOfBytes_take (bytes : List (BitVec 8)) :
    listOfBytes (bytes.take (bytes.length - bytes.length % 4)) = listOfBytes bytes := by
  fun_induction listOfBytes bytes with
  | case1 b0 b1 b2 b3 tail ih =>
    have size : (b0 :: b1 :: b2 :: b3 :: tail).length -
        (b0 :: b1 :: b2 :: b3 :: tail).length % 4 = tail.length - tail.length % 4 + 4 := by
      simp only [List.length_cons]
      omega
    rw [size]
    show ofBytes b0 b1 b2 b3 :: listOfBytes (tail.take (tail.length - tail.length % 4)) = _
    rw [ih]
  | case2 bytes short =>
    have := length_lt_of_short short
    rw [show bytes.length - bytes.length % 4 = 0 by omega, List.take_zero]
    rfl

/-- One word makes four bytes. -/
theorem length_flatMap_toBytes (ws : List Word) : (ws.flatMap toBytes).length = 4 * ws.length := by
  induction ws with
  | nil => rfl
  | cons w ws ih =>
    rw [List.flatMap_cons, List.length_append, ih, List.length_cons, toBytes]
    simp only [List.length_cons, List.length_nil]
    omega

/-- The word of four bytes from byte `4 * k` on, the lowest byte first. -/
def ofBytesAt (bytes : List (BitVec 8)) (k : Nat) : Word :=
  .ofBytes (bytes.getD (4 * k) 0) (bytes.getD (4 * k + 1) 0) (bytes.getD (4 * k + 2) 0)
    (bytes.getD (4 * k + 3) 0)

/-- The words of bytes, by their places. -/
theorem listOfBytes_eq_map (bytes : List (BitVec 8)) :
    listOfBytes bytes = (List.range (bytes.length / 4)).map (ofBytesAt bytes) := by
  fun_induction listOfBytes bytes with
  | case1 b0 b1 b2 b3 tail ih =>
    have size : (b0 :: b1 :: b2 :: b3 :: tail).length / 4 = tail.length / 4 + 1 := by
      simp only [List.length_cons]
      omega
    rw [size, List.range_succ_eq_map, List.map_cons, List.map_map, ih]
    rfl
  | case2 bytes short =>
    have := length_lt_of_short short
    rw [Nat.div_eq_of_lt this]
    rfl

end Word

/-! ## Switches that are due -/

namespace SwitchMap

variable {m : SwitchMap} {offset : Nat}

/-- The last of the later switches counts. -/
theorem last_append (due later : SwitchMap) (isa : Isa) :
    last (due ++ later) isa = last later (last due isa) := by
  rw [last, last, last, List.getLast?_append]
  cases later.getLast? <;> rfl

/-- The switches that are not due at an offset are behind it. -/
theorem Sorted.lt_of_mem_dropWhile (h : m.Sorted) {s : Nat × Isa}
    (hs : s ∈ m.dropWhile (·.1 ≤ offset)) : offset < s.1 := by
  induction m with
  | nil => cases hs
  | cons t rest ih =>
    obtain ⟨before, hrest⟩ := List.pairwise_cons.1 h
    rw [List.dropWhile_cons] at hs
    split at hs
    · exact ih hrest hs
    · next behind =>
      have behind : offset < t.1 := by simpa using behind
      rcases List.mem_cons.1 hs with rfl | hs
      · exact behind
      · exact Nat.lt_trans behind (before s hs)

/-- The switches that are due are up to the offset. -/
theorem le_of_mem_takeWhile {s : Nat × Isa} (hs : s ∈ m.takeWhile (·.1 ≤ offset)) :
    s.1 ≤ offset :=
  of_decide_eq_true (List.mem_takeWhile_imp (p := fun s : Nat × Isa => decide (s.1 ≤ offset)) hs)

/-- Once the switches that are due were made, the others say what is in effect from there on. -/
theorem inEffect_dropWhile (isa : Isa) {next : Nat} (hnext : offset ≤ next) :
    inEffect (m.dropWhile (·.1 ≤ offset)) (last (m.takeWhile (·.1 ≤ offset)) isa) next =
      m.inEffect isa next := by
  have due : (m.takeWhile (·.1 ≤ offset)).filter (·.1 ≤ next) = m.takeWhile (·.1 ≤ offset) :=
    List.filter_eq_self.2 fun s hs =>
      decide_eq_true (Nat.le_trans (le_of_mem_takeWhile hs) hnext)
  have parts := List.takeWhile_append_dropWhile (p := fun s => decide (s.1 ≤ offset)) (l := m)
  calc inEffect (m.dropWhile (·.1 ≤ offset)) (last (m.takeWhile (·.1 ≤ offset)) isa) next
      = last ((m.takeWhile (·.1 ≤ offset)).filter (·.1 ≤ next) ++
          (m.dropWhile (·.1 ≤ offset)).filter (·.1 ≤ next)) isa := by
        rw [due, last_append, inEffect]
    _ = m.inEffect isa next := by rw [← List.filter_append, parts, inEffect]

/-- The switch in effect at an offset is the last one that is due. -/
theorem Sorted.inEffect_eq_last (h : m.Sorted) (isa : Isa) :
    m.inEffect isa offset = last (m.takeWhile (·.1 ≤ offset)) isa := by
  have later : (m.dropWhile (·.1 ≤ offset)).filter (·.1 ≤ offset) = [] := by
    rw [List.filter_eq_nil_iff]
    intro s hs
    simpa using h.lt_of_mem_dropWhile hs
  rw [← inEffect_dropWhile isa (Nat.le_refl offset), inEffect, later]
  rfl

/-- The switches that are due put the one in effect, and the others say what is in effect later. -/
theorem Sorted.inEffect_dropWhile (h : m.Sorted) (isa : Isa) {next : Nat} (hnext : offset ≤ next) :
    inEffect (m.dropWhile (·.1 ≤ offset)) (m.inEffect isa offset) next = m.inEffect isa next := by
  rw [h.inEffect_eq_last, SwitchMap.inEffect_dropWhile isa hnext]

/-- Leaving out switches that are not due changes which of the others are left, and not which are
due. -/
theorem Sorted.span_filter (h : m.Sorted) (offset : Nat) (keep : Nat × Isa → Bool)
    (hkeep : ∀ s, s.1 ≤ offset → keep s) :
    (m.filter keep).takeWhile (·.1 ≤ offset) = m.takeWhile (·.1 ≤ offset) ∧
      (m.filter keep).dropWhile (·.1 ≤ offset) = (m.dropWhile (·.1 ≤ offset)).filter keep := by
  induction m with
  | nil => exact ⟨rfl, rfl⟩
  | cons s rest ih =>
    obtain ⟨before, hrest⟩ := List.pairwise_cons.1 h
    by_cases due : s.1 ≤ offset
    · obtain ⟨taken, dropped⟩ := ih hrest
      simp [hkeep s due, due, taken, dropped]
    · -- all switches of the map are behind
      have behind : ∀ t ∈ (s :: rest).filter keep, offset < t.1 := by
        intro t ht
        rcases List.mem_cons.1 (List.mem_filter.1 ht).1 with rfl | ht
        · exact Nat.lt_of_not_le due
        · exact Nat.lt_trans (Nat.lt_of_not_le due) (before t ht)
      simp only [List.takeWhile_cons, List.dropWhile_cons, due]
      cases left : (s :: rest).filter keep with
      | nil => simp [left]
      | cons t kept =>
        have first := behind t (left ▸ .head _)
        simp [left, Nat.not_le.2 first]

end SwitchMap

/-! ## Visits -/

namespace Decoder

variable {d : Decoder ω}

/-- Switching leaves the decoder in the last instruction set, and visits nobody. -/
theorem switchAll_eq (d : Decoder ω) (due : SwitchMap) :
    (d.switchAll (due.map (·.2))).1 = { d with isa := due.last d.isa } ∧
      (d.switchAll (due.map (·.2))).2.filterMap Event.visit? = [] := by
  induction due generalizing d with
  | nil => exact ⟨rfl, rfl⟩
  | cons s due ih =>
    have single : (d.switchTo s.2).1 = { d with isa := s.2 } ∧
        (d.switchTo s.2).2.filterMap Event.visit? = [] := by
      rw [switchTo]
      split
      · next same => exact ⟨same ▸ rfl, rfl⟩
      · refine ⟨rfl, ?_⟩
        rw [List.filterMap_map, List.filterMap_eq_nil_iff]
        exact fun o _ => rfl
    obtain ⟨reached, told⟩ := ih (d.switchTo s.2).1
    rw [List.map_cons, switchAll]
    refine ⟨?_, ?_⟩
    · show ((d.switchTo s.2).1.switchAll (due.map (·.2))).1 = _
      rw [reached, single.1, ← List.singleton_append, SwitchMap.last_append]
      rfl
    · show ((d.switchTo s.2).2 ++ ((d.switchTo s.2).1.switchAll (due.map (·.2))).2).filterMap _ = []
      rw [List.filterMap_append, single.2, told]
      rfl

/-- The instruction that word `k` of a range is, if the range starts at an offset of the
switches. -/
def instructionAt (d : Decoder ω) (offset : Nat) (m : SwitchMap) (k : Nat) (w : Word) :
    Instruction where
  word := w
  category := d.graph.classify w (m.inEffect d.isa (offset + 4 * k))
  isa := m.inEffect d.isa (offset + 4 * k)
  offset := d.position + 4 * k

/-- How many words can be decoded from a position on before the stream ends. -/
def room (position : Nat) : Nat :=
  (2 ^ 64 - 1 - position) / 4

/-- At the end of the stream there is no room. -/
theorem room_eq_zero {position : Nat} (h : ¬ position + 4 < 2 ^ 64) : room position = 0 := by
  rw [room]
  omega

/-- A word that is decoded takes room. -/
theorem room_eq_succ {position : Nat} (h : position + 4 < 2 ^ 64) :
    room position = room (position + 4) + 1 := by
  rw [room, room]
  omega

/-- **One word of a range.** The switches that are due are made, which visits nobody. A word that
ends before the stream does is shown to every observer, and then come the words after it with the
switches that are left. Any other word stops the decoder. -/
theorem decodeWords_cons {m : SwitchMap} (hm : m.Sorted) (d : Decoder ω) (w : Word)
    (words : List Word) (offset : Nat) :
    ∃ switched : List (Event ω), switched.filterMap Event.visit? = [] ∧
      d.decodeWords (w :: words) offset m =
        if d.position + 4 < 2 ^ 64 then
          let next : Decoder ω :=
            { d with isa := m.inEffect d.isa offset, position := d.position + 4 }
          let rest := next.decodeWords words (offset + 4) (m.dropWhile (·.1 ≤ offset))
          { decoder := rest.decoder
            events := switched ++ d.observers.map (.visit · (d.instructionAt offset m 0 w)) ++
              rest.events
            result := rest.result.map (· + 1) }
        else
          { decoder := { d with isa := m.inEffect d.isa offset }
            events := switched
            result := .error .overflow } := by
  obtain ⟨reached, told⟩ := d.switchAll_eq (m.takeWhile (·.1 ≤ offset))
  rw [decodeWords, List.span_eq_takeWhile_dropWhile]
  dsimp only
  generalize d.switchAll ((m.takeWhile (·.1 ≤ offset)).map (·.2)) = switched at reached told ⊢
  obtain ⟨d', switches⟩ := switched
  obtain rfl : d' = _ := reached
  rw [← hm.inEffect_eq_last d.isa]
  refine ⟨switches, told, ?_⟩
  by_cases stays : d.position + 4 < 2 ^ 64
  · rw [decode, if_pos stays, if_pos stays]
    rfl
  · rw [decode, if_neg stays, if_neg stays]
    simp

/-- What a range answers: the number of its words if there is room for them. -/
theorem result_decodeWords {m : SwitchMap} (hm : m.Sorted) (d : Decoder ω) (words : List Word)
    (offset : Nat) : (d.decodeWords words offset m).result =
      if words.length ≤ room d.position then .ok words.length else .error .overflow := by
  induction words generalizing d offset m with
  | nil =>
    rw [List.length_nil, if_pos (Nat.zero_le _)]
    rfl
  | cons w words ih =>
    obtain ⟨switched, -, step⟩ := decodeWords_cons hm d w words offset
    rw [step, List.length_cons]
    split
    · next stays =>
      dsimp only
      rw [ih (hm.sublist (List.dropWhile_sublist _)), room_eq_succ stays]
      by_cases fits : words.length ≤ room (d.position + 4)
      · rw [if_pos fits, if_pos (Nat.succ_le_succ fits)]
        rfl
      · rw [if_neg fits, if_neg (fun h => fits (Nat.le_of_succ_le_succ h))]
        rfl
    · next ends =>
      rw [room_eq_zero ends, if_neg (Nat.not_succ_le_zero _)]

/-- Where a range leaves the decoder: behind the words for which there is room, in the instruction
set of the last word that it has come to. -/
theorem decoder_decodeWords {m : SwitchMap} (hm : m.Sorted) (d : Decoder ω) (words : List Word)
    (offset : Nat) : (d.decodeWords words offset m).decoder =
      { d with
        isa := if words.length = 0 then d.isa
          else m.inEffect d.isa (offset + 4 * min (words.length - 1) (room d.position))
        position := d.position + 4 * min words.length (room d.position) } := by
  induction words generalizing d offset m with
  | nil =>
    rw [List.length_nil, if_pos rfl, Nat.zero_min]
    rfl
  | cons w words ih =>
    obtain ⟨switched, -, step⟩ := decodeWords_cons hm d w words offset
    rw [step, List.length_cons, if_neg (Nat.succ_ne_zero _), Nat.add_sub_cancel]
    split
    · next stays =>
      dsimp only
      rw [ih (hm.sublist (List.dropWhile_sublist _)), room_eq_succ stays]
      have position : d.position + 4 + 4 * min words.length (room (d.position + 4)) =
          d.position + 4 * min (words.length + 1) (room (d.position + 4) + 1) := by omega
      have isa : (if words.length = 0 then m.inEffect d.isa offset else
            SwitchMap.inEffect (m.dropWhile (·.1 ≤ offset)) (m.inEffect d.isa offset)
              (offset + 4 + 4 * min (words.length - 1) (room (d.position + 4)))) =
          m.inEffect d.isa (offset + 4 * min words.length (room (d.position + 4) + 1)) := by
        split
        · next none => rw [none, Nat.zero_min, Nat.mul_zero, Nat.add_zero]
        · next some =>
          rw [hm.inEffect_dropWhile d.isa (by omega)]
          congr 1
          omega
      rw [position, isa]
    · next ends =>
      rw [room_eq_zero ends, Nat.min_zero, Nat.min_zero]
      rfl

/-- **The visits of a range.** The words for which there is room are shown to every observer one
after another, each in the instruction set that the switches put in effect at its offset, and nobody
is visited with the others.

**Proof sketch.** Induction on the words. The switches that are due at a word are the ones up to its
offset, because the map is in order, and the last of them is in effect there
(`AArch64.Decoder.decodeWords_cons`). The others are left for the words after it. -/
theorem visits_decodeWords_take {m : SwitchMap} (hm : m.Sorted) (d : Decoder ω) (words : List Word)
    (offset : Nat) : (d.decodeWords words offset m).events.filterMap Event.visit? =
      ((words.take (room d.position)).mapIdx fun k w =>
        d.observers.map (·, d.instructionAt offset m k w)).flatten := by
  induction words generalizing d offset m with
  | nil => rw [List.take_nil]; rfl
  | cons w words ih =>
    obtain ⟨switched, told, step⟩ := decodeWords_cons hm d w words offset
    rw [step]
    split
    · next stays =>
      dsimp only
      rw [room_eq_succ stays, List.take_succ_cons, List.mapIdx_cons, List.flatten_cons,
        List.filterMap_append, List.filterMap_append, told, List.nil_append, List.filterMap_map,
        ih (hm.sublist (List.dropWhile_sublist _))]
      congr 1
      · -- the word itself
        show d.observers.filterMap (some ∘ fun o => (o, d.instructionAt offset m 0 w)) = _
        rw [List.filterMap_eq_map]
      · -- the words after it
        congr 1
        refine congrArg (List.mapIdx · _) (funext fun k => funext fun w => ?_)
        have next : offset + 4 + 4 * k = offset + 4 * (k + 1) := by omega
        have position : d.position + 4 + 4 * k = d.position + 4 * (k + 1) := by omega
        simp only [instructionAt, next, position,
          hm.inEffect_dropWhile d.isa (Nat.le_add_right offset (4 * (k + 1)))]
    · next ends => rw [room_eq_zero ends, told]; rfl

/-- The visits of a range that ends before the stream does. -/
theorem visits_decodeWords {m : SwitchMap} (hm : m.Sorted) (words : List Word) (offset : Nat)
    (hfits : d.position + 4 * words.length < 2 ^ 64) :
    (d.decodeWords words offset m).events.filterMap Event.visit? =
      (words.mapIdx fun k w => d.observers.map (·, d.instructionAt offset m k w)).flatten := by
  have fits : words.length ≤ room d.position := by rw [room]; omega
  rw [visits_decodeWords_take hm, List.take_of_length_le fits]

/-- Switches that are not due at any word do not matter. -/
theorem decodeWords_filter {m : SwitchMap} (hm : m.Sorted) (d : Decoder ω) (words : List Word)
    (offset : Nat) : d.decodeWords words offset m =
      d.decodeWords words offset (m.filter (·.1 + 4 ≤ offset + 4 * words.length)) := by
  induction words generalizing d offset m with
  | nil => rfl
  | cons w words ih =>
    obtain ⟨taken, dropped⟩ := hm.span_filter offset
      (fun s => s.1 + 4 ≤ offset + 4 * (w :: words).length) fun s hs => by
        simp only [List.length_cons, decide_eq_true_eq]
        omega
    have bound : offset + 4 * (w :: words).length = offset + 4 + 4 * words.length := by
      rw [List.length_cons]
      omega
    rw [decodeWords, decodeWords, List.span_eq_takeWhile_dropWhile,
      List.span_eq_takeWhile_dropWhile, taken, dropped, bound]
    simp only [← ih (hm.sublist (List.dropWhile_sublist _))]

end Decoder

end AArch64
