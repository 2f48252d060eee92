import AArch64.EncodingIndex
import AArch64.Proofs.Ranges

/-!
# What decoding a range does

A range of bytes is decoded word by word, the lowest byte of a word first. Every observer is shown
every word, at its place in the stream and in the instruction set that the switches say. The range
may reach the end of the stream before its last word; then the words for which there is room are
shown, and an overflow is reported.

## Main definitions

* `AArch64.Decoder.shown` — what a word of a range is shown as.
* `AArch64.Decoder.showing` — the visits of the first words of a range.

## Main results

* `AArch64.Decoder.visits_decodeRange` — the visits of a range, with room for it or without.
* `AArch64.Decoder.decodeRange_shows` — the visits, the answer and the state of the decoder.
-/

set_option autoImplicit false

namespace AArch64

namespace Decoder

variable {ω : Type}

/-- What word `k` of a range is shown as. Its instruction set is that of the greatest offset of a
switch that is not behind the word, and the one of the decoder if there is none. -/
def shown (d : Decoder ω) (bytes : List (BitVec 8)) (m : SwitchMap) (k : Nat) : Instruction where
  word := .ofBytesAt bytes k
  category := d.graph.classify (.ofBytesAt bytes k) (SwitchMap.given m d.isa (4 * k))
  isa := SwitchMap.given m d.isa (4 * k)
  offset := d.position + 4 * k

/-- The visits of the first `n` words of a range: every observer is visited with every word. -/
def showing (d : Decoder ω) (bytes : List (BitVec 8)) (m : SwitchMap) (n : Nat) :
    List (ω × Instruction) :=
  (List.range n).flatMap fun k => d.observers.map (·, d.shown bytes m k)

variable {m : SwitchMap}

/-- Lists that depend on a place and on what is there. -/
theorem flatten_mapIdx_map_range {α β : Type} (f : Nat → α) (g : Nat → α → List β) (n : Nat) :
    (((List.range n).map f).mapIdx g).flatten = (List.range n).flatMap fun k => g k (f k) := by
  rw [List.flatMap_def]
  refine congrArg List.flatten (List.ext_getElem (by simp) fun k _ _ => ?_)
  simp

/-- **The visits of a range** are those of the words for which there is room. -/
theorem visits_decodeRange (hm : m.Sorted) (d : Decoder ω) (bytes : List (BitVec 8)) :
    (d.decodeRange bytes m).events.filterMap Event.visit? =
      d.showing bytes m (min (bytes.length / 4) (room d.position)) := by
  rw [decodeRange, visits_decodeWords_take hm, Word.listOfBytes_eq_map, ← List.map_take,
    List.take_range, flatten_mapIdx_map_range, Nat.min_comm, showing]
  simp only [instructionAt, Nat.zero_add, hm.inEffect_eq_given]
  rfl

/-- Bytes after the last whole word, and switches behind the start of that word, do not matter. -/
theorem decodeRange_take_filter (hm : m.Sorted) (d : Decoder ω) (bytes : List (BitVec 8)) :
    d.decodeRange bytes m = d.decodeRange (bytes.take (4 * (bytes.length / 4)))
      (m.filter (·.1 + 4 ≤ 4 * (bytes.length / 4))) := by
  have whole : 4 * (bytes.length / 4) = bytes.length - bytes.length % 4 := by omega
  have words := Word.listOfBytes_take bytes
  rw [← whole] at words
  rw [decodeRange, decodeRange, words, decodeWords_filter hm, Word.length_listOfBytes,
    Nat.zero_add]

/-- The words of a buffer are shown as they are. -/
theorem words_showing (d : Decoder ω) (b : CodeBuffer) (m : SwitchMap) :
    (d.showing b.bytes m b.size).map (fun v => (v.1, v.2.word)) =
      b.words.toList.flatMap fun w => d.observers.map (·, w) := by
  have size : b.bytes.length / 4 = b.size := by
    rw [← Word.length_listOfBytes, b.listOfBytes_bytes]
    exact Array.length_toList
  have words := Word.listOfBytes_eq_map b.bytes
  rw [b.listOfBytes_bytes, size] at words
  rw [words, List.flatMap_map, showing, List.map_flatMap]
  simp only [List.map_map]
  rfl

/-- **Decoding a range**, with switches in order, from a position in the stream.

* If the range ends before the stream does, then the answer is the number of its whole words. The
  decoder is behind the last one, in its instruction set, and every observer was visited once with
  every word, in order.
* If it does not, an overflow is reported, and the observers were visited with the words for which
  there is room.
* Bytes after the last whole word, and switches behind the start of that word, have no effect.
* The bytes of a buffer are shown as the words of the buffer.

**Proof sketch.** Induction on the words, with one step for a word
(`AArch64.Decoder.decodeWords_cons`), gives the visits (`visits_decodeRange`), the answer
(`AArch64.Decoder.result_decodeWords`) and the state (`AArch64.Decoder.decoder_decodeWords`). The
last of the switches that are due is the one with the greatest offset
(`AArch64.SwitchMap.Sorted.inEffect_eq_given`). -/
theorem decodeRange_shows (hm : m.Sorted) (d : Decoder ω) (hposition : d.position < 2 ^ 64)
    (bytes : List (BitVec 8)) :
    let n := bytes.length / 4
    let step := d.decodeRange bytes m
    let visits := step.events.filterMap Event.visit?
    (d.position + 4 * n < 2 ^ 64 →
      step.result = .ok n ∧ visits = d.showing bytes m n ∧
        step.decoder = { d with
          position := d.position + 4 * n
          isa := if n = 0 then d.isa else SwitchMap.given m d.isa (4 * (n - 1)) }) ∧
    (2 ^ 64 ≤ d.position + 4 * n →
      step.result = .error .overflow ∧
        visits = d.showing bytes m ((2 ^ 64 - 1 - d.position) / 4)) ∧
    step = d.decodeRange (bytes.take (4 * n)) (m.filter (·.1 + 4 ≤ 4 * n)) ∧
    ∀ b : CodeBuffer, bytes = b.bytes → d.position + 4 * b.size < 2 ^ 64 →
      visits.map (fun v => (v.1, v.2.word)) =
        b.words.toList.flatMap fun w => d.observers.map (·, w) := by
  intro n step visits
  have length : (Word.listOfBytes bytes).length = n := Word.length_listOfBytes bytes
  have result := result_decodeWords hm d (Word.listOfBytes bytes) 0
  have decoder := decoder_decodeWords hm d (Word.listOfBytes bytes) 0
  have shows : visits = d.showing bytes m (min n (room d.position)) := visits_decodeRange hm d bytes
  rw [length] at result decoder
  refine ⟨fun fits => ?_, fun ends => ?_, decodeRange_take_filter hm d bytes, ?_⟩
  · have enough : n ≤ room d.position := by
      rw [room]
      omega
    rw [if_pos enough] at result
    rw [Nat.min_eq_left enough] at shows decoder
    rw [hm.inEffect_eq_given, Nat.zero_add,
      Nat.min_eq_left (Nat.le_trans (Nat.sub_le n 1) enough)] at decoder
    exact ⟨result, shows, decoder⟩
  · have short : room d.position < n := by
      rw [room]
      omega
    rw [if_neg (Nat.not_le.2 short)] at result
    rw [Nat.min_eq_right (Nat.le_of_lt short)] at shows
    exact ⟨result, shows⟩
  · rintro b rfl fits
    have size : n = b.size := by
      rw [← length, b.listOfBytes_bytes]
      exact Array.length_toList
    have enough : b.size ≤ room d.position := by
      rw [room]
      omega
    rw [shows, size, Nat.min_eq_left enough, words_showing]

/-- Two observers, and room for two words. -/
def beforeEnd : Decoder Nat where
  graph := EncodingIndex.graph
  observers := [0, 1]
  isa := .a64
  position := 2 ^ 64 - 9

/-- Three words and two more bytes: the third word is not shown. Of the switches between the first
two words the later one is in effect at the second one. -/
theorem decodeRange_shows_beforeEnd :
    let m : SwitchMap := [(1, .a64), (3, .c64), (6, .a64)]
    let bytes : List (BitVec 8) := [0, 1, 2, 3, 4, 5, 6, 7, 8, 9, 10, 11, 12, 13]
    let step := beforeEnd.decodeRange bytes m
    m.Sorted ∧ beforeEnd.position < 2 ^ 64 ∧ step.result = .error .overflow ∧
      (step.events.filterMap Event.visit?).map (fun v => (v.1, v.2.word, v.2.isa, v.2.offset)) =
        [(0, 0x03020100#32, .a64, 2 ^ 64 - 9), (1, 0x03020100#32, .a64, 2 ^ 64 - 9),
          (0, 0x07060504#32, .c64, 2 ^ 64 - 5), (1, 0x07060504#32, .c64, 2 ^ 64 - 5)] := by
  intro m bytes step
  have sorted : m.Sorted := by simp [m, SwitchMap.Sorted]
  have position : beforeEnd.position < 2 ^ 64 := by decide
  obtain ⟨-, ends, -⟩ := decodeRange_shows sorted beforeEnd position bytes
  obtain ⟨result, visits⟩ := ends (by decide)
  refine ⟨sorted, position, result, (congrArg _ visits).trans ?_⟩
  decide +kernel

end Decoder

end AArch64
