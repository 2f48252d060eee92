import AArch64.CommandLine.Arguments
import AArch64.CommandLine.Log
import AArch64.EncodingIndex
import AArch64.Stream

/-!
# Listings

What the classifier prints for the bytes of a file and the words among its arguments: one line for
each word with its offset, the word and its category, and a summary that counts words, reserved
encodings and encodings that are not classified. In between it logs what it does: that the last
bytes of the file are no word, that the graph was built, and changes of the instruction set.

## Main definitions

* `AArch64.Listing.code` — the bytes that the arguments and the file give.
* `AArch64.Listing.instructions` — the instructions that they are.
* `AArch64.Listing.lines` — the listing.
* `AArch64.Listing.printed` — the listing, and the log messages between its lines.
-/

set_option autoImplicit false

namespace AArch64

/-- What a program prints: a line of its own, or a log message. -/
inductive Printed
  /-- A line. -/
  | line (text : String)
  /-- A log message. -/
  | log (message : Log.Message)
  deriving DecidableEq

namespace Printed

/-- Whether a filter lets something through. Lines do not depend on it. -/
def isShown (shows : Log.Filter) : Printed → Bool
  | .line _ => true
  | .log m => shows m

/-- Whether it is a line. -/
def isLine : Printed → Bool
  | .line _ => true
  | .log _ => false

/-- The log message, if it is one. -/
def message? : Printed → Option Log.Message
  | .line _ => none
  | .log m => some m

/-- The text that is printed. -/
def text : Printed → String
  | .line s => s
  | .log m => m.line

end Printed

namespace Listing

/-! ## The instructions -/

/-- The bytes to classify: the whole words of the file, then the words among the arguments. -/
def code (a : Arguments) (file : List (BitVec 8)) : List (BitVec 8) :=
  file.take (file.length - file.length % 4) ++ a.words.flatMap Word.toBytes

/-- The switches among the arguments. The instruction set of offset 0 is that of the arguments
unless a switch says otherwise. -/
def switches (a : Arguments) : SwitchMap :=
  (SwitchMap.ofList a.switches).insertIfNew 0 a.isa

/-- Registers the listing, the only observer, with a decoder. -/
def registered : Step Unit Unit :=
  (Decoder.new EncodingIndex.graph).append ()

/-- Decodes the bytes. -/
def decoded (a : Arguments) (file : List (BitVec 8)) : Step Unit Nat :=
  registered.decoder.decodeRange (code a file) (switches a)

/-- The instructions that the listing is visited with. -/
def instructions (a : Arguments) (file : List (BitVec 8)) : List Instruction :=
  ((decoded a file).events.filterMap Event.visit?).map (·.2)

/-! ## Lines -/

/-- The line of an instruction. -/
def line (i : Instruction) : String :=
  s!"{Text.hex 8 i.offset}: {Text.hex 8 i.word.toNat}  {i.category.name}"

/-- The line that sums up. -/
def summary (is : List Instruction) : String :=
  let unallocated := (is.filter (·.category = .unallocated)).length
  let unimplemented := (is.filter (·.category = .unimplemented)).length
  s!"{is.length} instructions, {unallocated} unallocated, {unimplemented} unimplemented"

/-- The listing of the instructions. -/
def lines (is : List Instruction) : List String :=
  is.map line ++ [summary is]

/-! ## Log messages -/

/-- A file of this size is not made of words. -/
def notWholeWords (size : Nat) : Log.Message where
  level := .warn
  source := "armkit"
  text := "input is not a whole number of words"
  fields := [("len", toString size)]

/-- The graph was built. -/
def graphBuilt : Log.Message where
  level := .debug
  source := "isa::decoder::graph"
  text := "decode graph built"
  fields := [("tables", toString EncodingIndex.tables.length),
    ("nodes", toString EncodingIndex.graph.size), ("optimize", "true")]

/-- The decoder changes to an instruction set, which is from the other one. -/
def switched (isa : Isa) : Log.Message where
  level := .debug
  source := "isa::decoder"
  text := "instruction set switched"
  fields := [("from", (match isa with | .a64 => Isa.c64 | .c64 => Isa.a64).text), ("to", isa.text)]

/-- The listing is told of an instruction set. -/
def told (isa : Isa) : Log.Message where
  level := .debug
  source := "armkit"
  text := "listing switched instruction set"
  fields := [("isa", isa.text)]

/-! ## What is printed -/

/-- What the listing does with an event. -/
def heard : Event Unit → List Printed
  | .setIsa _ isa => [.log (told isa)]
  | .visit _ i => [.line (line i)]

/-- What the decoder does before it tells its observer of an event. -/
def announced : Event Unit → List Printed
  | .setIsa _ isa => [.log (switched isa)]
  | .visit _ _ => []

/-- What is printed, log messages included, for accepted arguments and the bytes of the file. -/
def printed (a : Arguments) (file : List (BitVec 8)) : List Printed :=
  (if file.length % 4 = 0 then [] else [.log (notWholeWords file.length)]) ++
  if (code a file).isEmpty then []
  else
    .log graphBuilt :: registered.events.flatMap heard ++
      (decoded a file).events.flatMap (fun e => announced e ++ heard e) ++
      [.line (summary (instructions a file))]

end Listing

end AArch64
