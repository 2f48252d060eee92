import AArch64.CommandLine.Program
import AArch64.Proofs.Arguments
import AArch64.Proofs.Effects
import AArch64.Proofs.Ranges

/-!
# What the classifier prints

The listing shows the words of the file and then the words among the arguments, each at its offset
and in the instruction set that the switches put in effect there, and sums them up. Log messages
stand between its lines, and the filter of the environment decides about them. Of those that are
shown without being asked for there is one: that the last bytes of the file are no word.

## Main definitions

* `AArch64.Printed.isNotable` — lines, and the messages that are shown without being asked for.

## Main results

* `AArch64.Listing.listOfBytes_code` — the words that are classified.
* `AArch64.Listing.instructions_eq` — the instructions that they are.
* `AArch64.Listing.filter_printed` — the lines and the warning, without the other messages.
* `AArch64.Program.run_listing` — what is printed for accepted arguments.
-/

set_option autoImplicit false

namespace AArch64

/-- A line, or a message that is shown where the environment says nothing. -/
def Printed.isNotable : Printed → Bool :=
  isShown .standard

/-! ## The listing -/

namespace Listing

variable {a : Arguments} {file : List (BitVec 8)}

/-- The words of the file, without up to three bytes at its end, and the words among the arguments
are classified. -/
theorem listOfBytes_code (a : Arguments) (file : List (BitVec 8)) :
    Word.listOfBytes (code a file) = Word.listOfBytes file ++ a.words := by
  have whole : (file.take (file.length - file.length % 4)).length % 4 = 0 := by
    rw [List.length_take]
    omega
  rw [code, Word.listOfBytes_append whole, Word.listOfBytes_take, Word.listOfBytes_flatMap_toBytes]

/-- The bytes that are classified are whole words. -/
theorem length_code (a : Arguments) (file : List (BitVec 8)) :
    (code a file).length = 4 * (Word.listOfBytes file ++ a.words).length := by
  rw [code, List.length_append, List.length_append, List.length_take, Word.length_flatMap_toBytes,
    Word.length_listOfBytes]
  omega

/-- There is nothing to classify exactly if there are no words. -/
theorem isEmpty_code_iff (a : Arguments) (file : List (BitVec 8)) :
    (code a file).isEmpty ↔ Word.listOfBytes file ++ a.words = [] := by
  rw [List.isEmpty_iff, ← List.length_eq_zero_iff, length_code, ← List.length_eq_zero_iff]
  omega

/-- A function of what is found at each place. -/
theorem map_mapIdx {α β γ : Type} (g : β → γ) (f : Nat → α → β) (l : List α) :
    (l.mapIdx f).map g = l.mapIdx fun k x => g (f k x) := by
  rw [List.mapIdx_eq_zipIdx_map, List.mapIdx_eq_zipIdx_map, List.map_map]
  rfl

/-- One thing for each place. -/
theorem flatten_mapIdx_singleton {α β : Type} (f : Nat → α → β) (l : List α) :
    (l.mapIdx fun k x => [f k x]).flatten = l.mapIdx f := by
  induction l generalizing f with
  | nil => rfl
  | cons x l ih => rw [List.mapIdx_cons, List.mapIdx_cons, List.flatten_cons, ih]; rfl

/-- The instructions of a listing: each word at its offset, in the instruction set that the switches
put in effect there. -/
theorem instructions_eq (hsize : file.length + 4 * a.words.length < 2 ^ 64) :
    instructions a file = (Word.listOfBytes file ++ a.words).mapIdx fun k w =>
      { word := w
        category := EncodingIndex.graph.classify w (SwitchMap.given a.switches a.isa (4 * k))
        isa := SwitchMap.given a.switches a.isa (4 * k)
        offset := 4 * k } := by
  have fits : 0 + 4 * (Word.listOfBytes (code a file)).length < 2 ^ 64 := by
    rw [listOfBytes_code, List.length_append, Word.length_listOfBytes]
    omega
  have sorted := (SwitchMap.sorted_ofList a.switches).insertIfNew 0 a.isa
  have visits :=
    registered.decoder.visits_decodeWords sorted (Word.listOfBytes (code a file)) 0 fits
  rw [listOfBytes_code] at visits
  rw [instructions, decoded, Decoder.decodeRange, listOfBytes_code, switches, visits,
    List.map_flatten, map_mapIdx]
  refine Eq.trans ?_ (flatten_mapIdx_singleton _ _)
  refine congrArg (fun f => (List.mapIdx f _).flatten) (funext fun k => funext fun w => ?_)
  rw [← SwitchMap.inEffect_insertIfNew a.switches a.isa .a64, registered]
  generalize EncodingIndex.graph = g
  simp [Decoder.append, Decoder.register, Decoder.new, Decoder.instructionAt]

/-- How many instructions there are of a category. -/
theorem length_filter_category (is : List Instruction) (c : Category) :
    (is.filter (·.category = c)).length = (is.map (·.category)).count c := by
  rw [List.count, List.countP_map, List.countP_eq_length_filter]
  rfl

/-! ## Log messages -/

/-- Messages of the decoder and of the listing are not shown without being asked for, so what stands
out among what they do is the lines. -/
theorem filter_flatMap_events (events : List (Event Unit)) :
    (events.flatMap fun e => announced e ++ heard e).filter (·.isNotable) =
      (events.filterMap Event.visit?).map fun v => .line (line v.2) := by
  induction events with
  | nil => rfl
  | cons e events ih =>
    rw [List.flatMap_cons, List.filter_append, ih]
    cases e <;> rfl

/-- **What stands out.** Without the messages that are only shown if they are asked for, the warning
about the last bytes of the file comes first and then the listing. -/
theorem filter_printed (a : Arguments) (file : List (BitVec 8)) :
    (printed a file).filter (·.isNotable) =
      (if file.length % 4 = 0 then [] else [.log (notWholeWords file.length)]) ++
      if (code a file).isEmpty then [] else (lines (instructions a file)).map .line := by
  have warning : (if file.length % 4 = 0 then [] else
      [Printed.log (notWholeWords file.length)]).filter (·.isNotable) =
        if file.length % 4 = 0 then [] else [.log (notWholeWords file.length)] := by
    split <;> rfl
  have before :
      (.log graphBuilt :: registered.events.flatMap heard).filter (·.isNotable) = [] := rfl
  rw [printed, List.filter_append, warning]
  congr 1
  split
  · rfl
  · rw [List.filter_append, List.filter_append, before, filter_flatMap_events, lines,
      List.map_append, instructions, List.map_map, List.map_map]
    rfl

end Listing

namespace Program

open Listing

/-- What is printed of what stands out: all lines, and the warning if the environment lets it
through. -/
theorem filter_output (env : Environment) (a : Arguments) (file : List (BitVec 8)) :
    ((printed a file).filter (·.isShown env.shows)).filter (·.isNotable) =
      (if file.length % 4 ≠ 0 ∧ env.shows (notWholeWords file.length) then
        [.log (notWholeWords file.length)] else []) ++
      if (code a file).isEmpty then [] else (lines (instructions a file)).map .line := by
  have lines_shown : ((lines (instructions a file)).map Printed.line).filter
      (·.isShown env.shows) = (lines (instructions a file)).map .line := by
    rw [List.filter_map]
    simp [Printed.isShown, Function.comp_def]
  rw [List.filter_comm, filter_printed, List.filter_append]
  congr 1
  · by_cases whole : file.length % 4 = 0 <;>
      cases shown : env.shows (notWholeWords file.length) <;> simp [whole, shown, Printed.isShown]
  · split
    · rfl
    · exact lines_shown

/-- The program for accepted arguments that do not ask for a log file. -/
theorem run_of_read {env : Environment} {argv : List String} {a : Arguments}
    {file : List (BitVec 8)} (hread : Arguments.read argv = .ok a) (hlog : a.logFile = false)
    (hfile : env.bytes a.input? = .ok file) :
    run env argv =
      { status := if (code a file).isEmpty then 1 else 0
        output := (printed a file).filter (·.isShown env.shows)
        errors := if (code a file).isEmpty then [nothingToDecode] else []
        logged := [] } := by
  rw [run, hread]
  simp [list, hfile, hlog]

/-- Where no messages are shown but those that are shown without being asked for, everything that is
printed stands out. -/
theorem filter_isNotable_eq_self {env : Environment}
    (hshows : ∀ m, env.shows m → Log.Filter.standard m) (l : List Printed) :
    (l.filter (·.isShown env.shows)).filter (·.isNotable) = l.filter (·.isShown env.shows) := by
  rw [List.filter_eq_self]
  intro p hp
  cases p with
  | line s => rfl
  | log m => exact hshows m (List.mem_filter.1 hp).2

/-- **What is printed.** Arguments that are accepted are written as a list of arguments, with one
file and one instruction set at most, and if that list does not ask for a log file, it and the bytes
of the file that it names decide what the program does. The words are those of the file, without up
to three bytes at its end, and then those of the list. The instruction set at an offset is the one
of the last switch at the greatest offset up to there, and the one of the list, or A64, if there is
no such switch.

Without words there is one line of error output, and the exit status is 1. Otherwise the exit status
is 0, and the output shows for each word its offset, the word and its category in the graph of the
encoding index, and sums up in one more line how many words there are and how many of them are
unallocated and unimplemented.

Of the log messages, the output shows those that the environment lets through. Where that is none
but the ones that are shown without being asked for, there is only the warning that the last bytes
of the file are no word, before everything else; where it is more, the output without them is the
same.

**Proof sketch.** The arguments say what their list says (`AArch64.Arguments.read_eq_ok_iff`). The
decoder visits each word once, in the instruction set that the switches put in effect at its offset
(`AArch64.Listing.instructions_eq`), and every visit prints its line among log messages that do not
stand out (`AArch64.Listing.filter_printed`). The filter of the environment only leaves out log
messages, so it commutes with that. -/
theorem run_listing (env : Environment) {argv : List String} {a : Arguments}
    (hread : Arguments.read argv = .ok a) :
    (∃ xs, CommandLine argv xs ∧ Argument.Once xs) ∧ ∀ xs, CommandLine argv xs → .logFile ∉ xs →
      ∀ file, env.bytes (xs.filterMap Argument.path?).head? = .ok file →
        file.length + 4 * (xs.filterMap Argument.word?).length < 2 ^ 64 →
        let words := Word.listOfBytes file ++ xs.filterMap Argument.word?
        let isa := (xs.filterMap Argument.isa?).head?.getD .a64
        let category (k : Nat) (w : Word) : Category := EncodingIndex.graph.classify w
          (SwitchMap.given (xs.filterMap Argument.switch?) isa (4 * k))
        let unallocated := (words.mapIdx category).count .unallocated
        let unimplemented := (words.mapIdx category).count .unimplemented
        let totals :=
          s!"{words.length} instructions, {unallocated} unallocated, {unimplemented} unimplemented"
        let warning := Listing.notWholeWords file.length
        let shown : List Printed :=
          (if file.length % 4 ≠ 0 ∧ env.shows warning then [.log warning] else []) ++
          if words = [] then []
          else
            (words.mapIdx fun k w =>
              .line s!"{Text.hex 8 (4 * k)}: {Text.hex 8 w.toNat}  {(category k w).name}") ++
            [.line totals]
        (run env argv).status = (if words = [] then 1 else 0) ∧
        (run env argv).errors = (if words = [] then
          ["Error: \"nothing to decode: pass an input file or --word\""] else []) ∧
        (∀ m, .log m ∈ (run env argv).output → env.shows m) ∧
        (run env argv).output.filter (·.isNotable) = shown ∧
        ((∀ m, env.shows m → Log.Filter.standard m) → (run env argv).output = shown) := by
  refine ⟨?_, fun xs hxs hlog file hfile hsize => ?_⟩
  · obtain ⟨xs, hxs, once, -⟩ := Arguments.read_eq_ok_iff.1 hread
    exact ⟨xs, hxs, once⟩
  obtain ⟨-, rfl⟩ := (Arguments.read_eq_ok_iff_of_commandLine hxs).1 hread
  have empty := isEmpty_code_iff (Arguments.ofList xs) file
  have output := filter_output env (Arguments.ofList xs) file
  rw [lines, summary, length_filter_category, length_filter_category, instructions_eq hsize,
    map_mapIdx, map_mapIdx, List.length_mapIdx, List.map_append, map_mapIdx] at output
  rw [run_of_read hread (decide_eq_false hlog) hfile]
  simp only [empty] at output ⊢
  refine ⟨rfl, rfl, fun m hm => (List.mem_filter.1 hm).2, ?_, fun hshows => ?_⟩
  · generalize EncodingIndex.graph = g at output ⊢
    exact output
  · rw [← filter_isNotable_eq_self hshows]
    generalize EncodingIndex.graph = g at output ⊢
    exact output

/-- An environment with one file, of three bytes, that does not say which messages are shown. -/
def threeBytes : Environment where
  file path := if path = "code.bin" then .ok [0, 0, 0] else .error "no such file"

/-- Three bytes are no word, so there is nothing to classify, and the output says that they are
none. -/
theorem output_ne_nil_of_threeBytes :
    Arguments.read ["code.bin"] = .ok { input? := some "code.bin" } ∧
      threeBytes.bytes (some "code.bin") = .ok [0, 0, 0] ∧ Word.listOfBytes [0, 0, 0] = [] ∧
      (run threeBytes ["code.bin"]).output ≠ [] := by
  decide +kernel

/-- The three bytes, a branch twice, and two switches before the second one, of which the later one
counts. -/
theorem run_listing_twoBranches :
    let argv :=
      ["code.bin", "-wd61f0020", "--word", "0xD61F_0020", "--switch=4=a64", "--switch", "4=c64"]
    Arguments.read argv = .ok
        { input? := some "code.bin", words := [0xd61f0020, 0xd61f0020],
          switches := [(4, .a64), (4, .c64)] } ∧
      (run threeBytes argv).status = 0 ∧ (run threeBytes argv).errors = [] ∧
      (run threeBytes argv).output =
        [.log (notWholeWords 3),
          .line "00000000: d61f0020  UnconditionalBranchRegister",
          .line "00000004: d61f0020  CapabilityBranchRegister",
          .line "2 instructions, 0 unallocated, 0 unimplemented"] := by
  intro argv
  have hread : Arguments.read argv = .ok
      { input? := some "code.bin", words := [0xd61f0020, 0xd61f0020],
        switches := [(4, .a64), (4, .c64)] } := by
    decide +kernel
  have written : CommandLine argv [.input "code.bin", .word 0xd61f0020, .word 0xd61f0020,
      .switch 4 .a64, .switch 4 .c64] :=
    .cons (.input (by decide) (by rintro c cs ⟨⟩)) <|
    .cons (.together (@Argument.Names.letterWith "d61f0020" (by decide) (by rintro cs ⟨⟩))
      (.word (by decide +kernel))) <|
    .cons (.apart (@Argument.Names.long "word") (.word (by decide +kernel))
      (by rintro c cs ⟨⟩)) <|
    .cons (.together (@Argument.Names.joined "switch" "4=a64") (.switch (by decide +kernel))) <|
    .cons (.apart (@Argument.Names.long "switch") (.switch (by decide +kernel))
      (by rintro c cs ⟨⟩)) .nil
  have category : ∀ isa, EncodingIndex.graph.classify 0xd61f0020 isa =
      (Form.branchRegister .br ⟨1, .x⟩).category isa := fun isa =>
    EncodingIndex.classify_eq_iff.2 (Form.leads_word (f := .branchRegister .br ⟨1, .x⟩) rfl trivial)
  obtain ⟨status, errors, -, -, output⟩ := (run_listing threeBytes hread).2 _ written (by decide)
    [0, 0, 0] rfl (by decide)
  refine ⟨hread, status, errors, (output fun _ h => h).trans ?_⟩
  generalize EncodingIndex.graph = g at category ⊢
  have words : Word.listOfBytes [0, 0, 0] ++ List.filterMap Argument.word? [.input "code.bin",
      .word 0xd61f0020, .word 0xd61f0020, .switch 4 .a64, .switch 4 .c64] =
    [0xd61f0020, 0xd61f0020] := rfl
  dsimp only
  rw [words]
  simp only [List.mapIdx_cons, List.mapIdx_nil, category]
  decide +kernel

end Program

end AArch64
