import AArch64.CommandLine.Arguments
import Mathlib.Data.List.Induction

/-!
# How arguments are written

The grammar of the command line, apart from how it is read: a list of arguments is written as one
text or two for each of them, and after the separator `--` any text is the name of the file.

## Main definitions

* `AArch64.Argument` — an argument with its value.
* `AArch64.Argument.Written`, `AArch64.CommandLine` — how arguments are written.
* `AArch64.Argument.Once` — what may come once does.
* `AArch64.Arguments.ofList` — what a list of arguments says.

## Main results

* `AArch64.Arguments.foldlM_add?_eq_some_iff` — which lists of arguments can be taken one after
  another.
-/

set_option autoImplicit false

namespace AArch64

/-- An argument with its value. -/
inductive Argument
  /-- The file. -/
  | input (path : String)
  /-- A word. -/
  | word (w : Word)
  /-- The instruction set at offset 0. -/
  | isa (isa : Isa)
  /-- A switch. -/
  | switch (offset : Nat) (isa : Isa)
  /-- A log file is asked for. -/
  | logFile
  deriving DecidableEq

namespace Argument

/-- The file of an argument. -/
@[simp]
def path? : Argument → Option String
  | .input path => some path
  | _ => none

/-- The word of an argument. -/
@[simp]
def word? : Argument → Option Word
  | .word w => some w
  | _ => none

/-- The instruction set of an argument. -/
@[simp]
def isa? : Argument → Option Isa
  | .isa i => some i
  | _ => none

/-- The switch of an argument. -/
@[simp]
def switch? : Argument → Option (Nat × Isa)
  | .switch offset i => some (offset, i)
  | _ => none

/-- The option with this name takes this text as its value. -/
inductive Takes : String → String → Argument → Prop
  /-- A word. -/
  | word {text : String} {w : Word} (h : Value.word text = .ok w) : Takes "word" text (.word w)
  /-- The instruction set. -/
  | isa {text : String} {i : Isa} (h : Value.isa text = .ok i) : Takes "isa" text (.isa i)
  /-- A switch. -/
  | switch {text : String} {offset : Nat} {i : Isa} (h : Value.switch text = .ok (offset, i)) :
      Takes "switch" text (.switch offset i)

/-- Which values the options take. -/
theorem takes_iff {name text : String} {x : Argument} : Takes name text x ↔
    (∃ w, name = "word" ∧ Value.word text = .ok w ∧ x = .word w) ∨
    (∃ i, name = "isa" ∧ Value.isa text = .ok i ∧ x = .isa i) ∨
    ∃ s, name = "switch" ∧ Value.switch text = .ok s ∧ x = .switch s.1 s.2 := by
  constructor
  · rintro (h | h | h)
    · exact .inl ⟨_, rfl, h, rfl⟩
    · exact .inr (.inl ⟨_, rfl, h, rfl⟩)
    · exact .inr (.inr ⟨_, rfl, h, rfl⟩)
  · rintro (⟨w, rfl, h, rfl⟩ | ⟨i, rfl, h, rfl⟩ | ⟨s, rfl, h, rfl⟩)
    · exact .word h
    · exact .isa h
    · exact .switch h

/-- A text is the value of one argument. -/
theorem Takes.unique {name text : String} {x y : Argument} (hx : Takes name text x)
    (hy : Takes name text y) : y = x := by
  rcases takes_iff.1 hx with ⟨w, rfl, h, rfl⟩ | ⟨i, rfl, h, rfl⟩ | ⟨s, rfl, h, rfl⟩ <;>
    simpa [takes_iff, h, eq_comm] using hy

/-- A text that is no option: it does not start with `-`, or there is nothing else in it. -/
def StandsAlone (text : String) : Prop :=
  ∀ c cs, text.toList ≠ '-' :: c :: cs

/-- A text names an option, alone or with a value. -/
inductive Names : String → String → Option String → Prop
  /-- The name. -/
  | long {name : String} : Names ("--" ++ name) name none
  /-- The name and the value. -/
  | joined {name value : String} : Names ("--" ++ name ++ "=" ++ value) name (some value)
  /-- The letter. -/
  | letter : Names "-w" "word" none
  /-- The letter and the value. -/
  | letterJoined {value : String} : Names ("-w=" ++ value) "word" (some value)
  /-- The letter and at once the value. -/
  | letterWith {value : String} (hvalue : value ≠ "") (h : ∀ cs, value.toList ≠ '=' :: cs) :
      Names ("-w" ++ value) "word" (some value)

/-- A text that names an option is no separator. -/
theorem Names.ne_separator {text name : String} {value? : Option String}
    (h : Names text name value?) (hname : name ≠ "") : text ≠ "--" := by
  intro separator
  have list := congrArg String.toList separator
  cases h with
  | long => exact hname (by simpa [String.toList_append] using list)
  | joined | letterWith => simp [String.toList_append] at list
  | letter | letterJoined => simp [String.toList_append] at list

/-- How an argument is written before the separator. -/
inductive Written : List String → Argument → Prop
  /-- A file, by its name. -/
  | input {path : String} (hpath : path ≠ "") (h : StandsAlone path) : Written [path] (.input path)
  /-- An option and its value as the next text. -/
  | apart {text name value : String} {x : Argument} (hname : Names text name none)
      (hx : Takes name value x) (h : StandsAlone value) : Written [text, value] x
  /-- An option and its value in one text. -/
  | together {text name value : String} {x : Argument} (hname : Names text name (some value))
      (hx : Takes name value x) : Written [text] x
  /-- The option without value. -/
  | logFile : Written ["--log-file"] .logFile

/-- What may come once does not come again. -/
@[mk_iff]
structure Once (xs : List Argument) : Prop where
  input : (xs.filterMap path?).length ≤ 1
  isa : (xs.filterMap isa?).length ≤ 1
  logFile : xs.count .logFile ≤ 1

/-- Arguments without the last one come once if they come once with it. -/
theorem Once.of_concat {xs : List Argument} {x : Argument} (h : Once (xs ++ [x])) : Once xs := by
  have part := List.sublist_append_left xs [x]
  exact ⟨Nat.le_trans (part.filterMap path?).length_le h.input,
    Nat.le_trans (part.filterMap isa?).length_le h.isa, Nat.le_trans (part.count_le _) h.logFile⟩

end Argument

/-- How a list of arguments is written. -/
inductive CommandLine : List String → List Argument → Prop
  /-- There is none. -/
  | nil : CommandLine [] []
  /-- One argument, and others after it. -/
  | cons {texts argv : List String} {x : Argument} {xs : List Argument} (hx : x.Written texts)
      (hxs : CommandLine argv xs) : CommandLine (texts ++ argv) (x :: xs)
  /-- The separator. -/
  | separator : CommandLine ["--"] []
  /-- A file after the separator. -/
  | separated {path : String} (hpath : path ≠ "") : CommandLine ["--", path] [.input path]

namespace Arguments

open Argument

/-- What a list of arguments says. -/
def ofList (xs : List Argument) : Arguments where
  input? := (xs.filterMap path?).head?
  words := xs.filterMap word?
  isa? := (xs.filterMap Argument.isa?).head?
  switches := xs.filterMap switch?
  logFile := .logFile ∈ xs

/-! ## One argument after another -/

/-- Takes one more argument, unless it may come once and has come. -/
def add? (a : Arguments) : Argument → Option Arguments
  | .input path => if a.input?.isSome then none else some { a with input? := some path }
  | .word w => some { a with words := a.words ++ [w] }
  | .isa i => if a.isa?.isSome then none else some { a with isa? := some i }
  | .switch offset i => some { a with switches := a.switches ++ [(offset, i)] }
  | .logFile => if a.logFile then none else some { a with logFile := true }

/-- What a function finds in arguments, with one more at the end. -/
theorem filterMap_concat {β : Type} (f : Argument → Option β) (xs : List Argument) (x : Argument) :
    (xs ++ [x]).filterMap f = xs.filterMap f ++ (f x).toList := by
  rw [List.filterMap_append]
  cases h : f x <;> simp [h]

/-- Taking one more argument says what the list with it at the end says. -/
theorem add?_ofList {xs : List Argument} (h : Once xs) {x : Argument} {a : Arguments} :
    (ofList xs).add? x = some a ↔ Once (xs ++ [x]) ∧ a = ofList (xs ++ [x]) := by
  obtain ⟨input, isa, logFile⟩ := h
  simp only [once_iff, ofList, filterMap_concat, List.count_append, List.mem_append,
    List.mem_singleton]
  cases x with
  | input path =>
    cases paths : xs.filterMap path? <;>
      simp [-List.head?_filterMap, add?, isa, logFile, eq_comm]
  | word w => simp [-List.head?_filterMap, add?, input, isa, logFile, eq_comm]
  | isa i =>
    cases sets : xs.filterMap Argument.isa? <;>
      simp [-List.head?_filterMap, add?, input, logFile, eq_comm]
  | switch offset i => simp [-List.head?_filterMap, add?, input, isa, logFile, eq_comm]
  | logFile =>
    by_cases has : .logFile ∈ xs <;>
      simp [-List.head?_filterMap, add?, has, List.count_eq_zero, input, isa, eq_comm]

/-- Arguments can be taken one after another exactly if what may come once does, and then say what
the list of them says. -/
theorem foldlM_add?_eq_some_iff {xs : List Argument} {a : Arguments} :
    xs.foldlM add? {} = some a ↔ Once xs ∧ a = ofList xs := by
  induction xs using List.reverseRecOn generalizing a with
  | nil =>
    have once : Once [] := ⟨Nat.zero_le 1, Nat.zero_le 1, Nat.zero_le 1⟩
    exact ⟨fun h => ⟨once, (Option.some.inj h).symm⟩, fun h => h.2 ▸ rfl⟩
  | append_singleton xs x ih =>
    rw [List.foldlM_append, Option.bind_eq_bind, Option.bind_eq_some_iff]
    constructor
    · rintro ⟨b, hb, hx⟩
      obtain ⟨once, rfl⟩ := ih.1 hb
      exact (add?_ofList once).1 (by simpa using hx)
    · intro h
      exact ⟨ofList xs, ih.2 ⟨h.1.of_concat, rfl⟩, by simpa using (add?_ofList h.1.of_concat).2 h⟩

end Arguments

end AArch64
