import AArch64.Bits

/-!
# Code buffers

The words emitted so far, in order. Words are stored with their lowest byte first.

## Main definitions

* `AArch64.CodeBuffer` — the words.
* `AArch64.CodeBuffer.bytes` — the code as bytes.
* `AArch64.Word.toBytes`, `AArch64.Word.ofBytes` — one word.

## Main results

* `AArch64.CodeBuffer.listOfBytes_bytes` — the words are read back from the bytes.
-/

set_option autoImplicit false

namespace AArch64

namespace Word

/-- The bytes of a word, the lowest first. -/
def toBytes (w : Word) : List (BitVec 8) :=
  [w.extractLsb' 0 8, w.extractLsb' 8 8, w.extractLsb' 16 8, w.extractLsb' 24 8]

/-- The word of four bytes, the lowest first. -/
def ofBytes (b0 b1 b2 b3 : BitVec 8) : Word :=
  b3 ++ b2 ++ b1 ++ b0

/-- The whole words at the front of a list of bytes. Up to three bytes at the end are left over. -/
def listOfBytes : List (BitVec 8) → List Word
  | b0 :: b1 :: b2 :: b3 :: rest => ofBytes b0 b1 b2 b3 :: listOfBytes rest
  | _ => []

/-- A word is put together from its four bytes. -/
theorem ofBytes_extractLsb' (w : Word) :
    ofBytes (w.extractLsb' 0 8) (w.extractLsb' 8 8) (w.extractLsb' 16 8) (w.extractLsb' 24 8) =
      w := by
  rw [ofBytes, BitVec.extractLsb'_append_extractLsb'_eq_extractLsb' (show 24 = 16 + 8 from rfl),
    BitVec.extractLsb'_append_extractLsb'_eq_extractLsb' (show 16 = 8 + 8 from rfl),
    BitVec.extractLsb'_append_extractLsb'_eq_extractLsb' (show 8 = 0 + 8 from rfl)]
  exact BitVec.extractLsb'_eq_self

/-- Words are read back from their bytes. -/
theorem listOfBytes_flatMap_toBytes (ws : List Word) : listOfBytes (ws.flatMap toBytes) = ws := by
  induction ws with
  | nil => rfl
  | cons w ws ih => simp [toBytes, listOfBytes, ih, ofBytes_extractLsb']

end Word

/-- The words emitted so far. -/
structure CodeBuffer where
  /-- The words, in the order in which they were emitted. -/
  words : Array Word
  deriving DecidableEq

namespace CodeBuffer

/-- No words. -/
def empty : CodeBuffer :=
  { words := #[] }

/-- Appends a word. -/
def emit (b : CodeBuffer) (w : Word) : CodeBuffer :=
  { words := b.words.push w }

/-- How many words there are. -/
def size (b : CodeBuffer) : Nat :=
  b.words.size

/-- Whether there are none. -/
def isEmpty (b : CodeBuffer) : Bool :=
  b.words.isEmpty

/-- An emitted word is one more word. -/
theorem size_emit (b : CodeBuffer) (w : Word) : (b.emit w).size = b.size + 1 := by
  simp [emit, size]

/-- The byte offset of the next word. -/
def position (b : CodeBuffer) : Nat :=
  4 * b.size

/-- The code as bytes. -/
def bytes (b : CodeBuffer) : List (BitVec 8) :=
  b.words.toList.flatMap Word.toBytes

/-- An emitted word adds its bytes at the end. -/
theorem bytes_emit (b : CodeBuffer) (w : Word) : (b.emit w).bytes = b.bytes ++ w.toBytes := by
  simp [emit, bytes]

/-- The words of a buffer are read back from its bytes. -/
theorem listOfBytes_bytes (b : CodeBuffer) : Word.listOfBytes b.bytes = b.words.toList :=
  Word.listOfBytes_flatMap_toBytes _

end CodeBuffer

end AArch64
