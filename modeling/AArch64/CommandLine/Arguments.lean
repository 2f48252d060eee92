import AArch64.CommandLine.Value

/-!
# Command line arguments

Reads the arguments of the classifier:

| argument                | meaning                                                 |
|-------------------------|---------------------------------------------------------|
| `INPUT`                 | file of code to classify                                |
| `-w HEX`, `--word HEX`  | word to classify after the file; may be repeated        |
| `--isa ISA`             | instruction set at offset 0                             |
| `--switch OFFSET=ISA`   | change of the instruction set; may be repeated          |
| `--log-file`            | keep log messages out of the output                     |
| `-h`, `--help`          | help                                                    |
| `-V`, `--version`       | version                                                 |

A value follows its option as the next argument, after `=`, or, for `-w`, at once. After `--` every
argument is positional. The next argument of an option is no value if it starts with `-` and more
follows. Such a value, and a positional, is *pending* until the next argument that stands for
itself is read, or the arguments end; only then is it settled, that is, present and well-formed. So
an unknown argument after an ill-formed value is what is reported.

## Main definitions

* `AArch64.Arguments` — what the arguments say.
* `AArch64.ArgumentFault` — why they are refused.
* `AArch64.Arguments.read` — reads a list of arguments.
-/

set_option autoImplicit false

namespace AArch64

/-- Why arguments are refused. Help and version are answered in place of any work. -/
inductive ArgumentFault
  /-- There is no such argument. -/
  | unknown
  /-- A value is ill-formed. -/
  | malformedValue
  /-- An option has no value, or the file has no name. -/
  | missingValue
  /-- An argument that may come once comes again. -/
  | repeated
  /-- An argument that takes no value has one. -/
  | needlessValue
  /-- Help is asked for. -/
  | help
  /-- The version is asked for. -/
  | version
  deriving DecidableEq

/-- What the arguments say. -/
structure Arguments where
  /-- The file. -/
  input? : Option String := none
  /-- The words, in order. -/
  words : List Word := []
  /-- The instruction set, if it is given. -/
  isa? : Option Isa := none
  /-- The switches, in order. -/
  switches : List (Nat × Isa) := []
  /-- Whether log messages stay out of the output. -/
  logFile : Bool := false
  deriving DecidableEq

namespace Arguments

/-- The instruction set at offset 0. -/
def isa (a : Arguments) : Isa :=
  a.isa?.getD default

/-! ## Values -/

/-- What a value is for. -/
inductive Slot
  /-- The file. -/
  | input
  /-- A word. -/
  | word
  /-- The instruction set. -/
  | isa
  /-- A switch. -/
  | switch
  deriving DecidableEq

/-- A well-formed value, or a refusal. -/
def wellFormed {α : Type} : Except ValueFault α → Except ArgumentFault α
  | .ok a => .ok a
  | .error _ => .error .malformedValue

/-- Stores a value. A second instruction set is refused before it is read. -/
def store (a : Arguments) (slot : Slot) (text : String) : Except ArgumentFault Arguments :=
  match slot with
  | .input => if text = "" then .error .missingValue else .ok { a with input? := some text }
  | .word => do return { a with words := a.words ++ [← wellFormed (Value.word text)] }
  | .isa => do
    if a.isa?.isSome then .error .repeated
    return { a with isa? := some (← wellFormed (Value.isa text)) }
  | .switch => do return { a with switches := a.switches ++ [← wellFormed (Value.switch text)] }

/-! ## Reading -/

/-- How far the arguments are read. -/
structure Progress where
  /-- What is settled. -/
  settled : Arguments := {}
  /-- What the pending value is for, and the value as soon as it is there. -/
  pending? : Option (Slot × Option String) := none
  /-- Whether there was a positional. -/
  hasInput : Bool := false

namespace Progress

/-- Settles the pending value. -/
def settle (p : Progress) : Except ArgumentFault Progress :=
  match p.pending? with
  | none => .ok p
  | some (_, none) => .error .missingValue
  | some (slot, some text) => do
    return { p with settled := ← p.settled.store slot text, pending? := none }

/-- Reads an option with its value, or before its value. -/
def option (p : Progress) (slot : Slot) (value? : Option String) :
    Except ArgumentFault Progress := do
  let p ← p.settle
  match value? with
  | some text => return { p with settled := ← p.settled.store slot text }
  | none => return { p with pending? := some (slot, none) }

/-- Reads `--log-file`. -/
def logFile (p : Progress) : Except ArgumentFault Progress := do
  let p ← p.settle
  if p.settled.logFile then .error .repeated
  return { p with settled := { p.settled with logFile := true } }

/-- Answers a request for help or the version. -/
def stop (p : Progress) (f : ArgumentFault) : Except ArgumentFault Progress := do
  let _ ← p.settle
  .error f

/-- Reads a positional. There is one. -/
def positional (p : Progress) (text : String) : Except ArgumentFault Progress :=
  if p.hasInput then .error .unknown
  else do
    let p ← p.settle
    return { p with pending? := some (.input, some text), hasInput := true }

/-- Reads an argument that starts with `--`: its name, and its value if there is one after `=`. -/
def long (p : Progress) (name : String) (value? : Option String) :
    Except ArgumentFault Progress :=
  let plain (flag : Except ArgumentFault Progress) : Except ArgumentFault Progress :=
    if value?.isSome then .error .needlessValue else flag
  match name with
  | "word" => p.option .word value?
  | "isa" => p.option .isa value?
  | "switch" => p.option .switch value?
  | "log-file" => plain p.logFile
  | "help" => plain (p.stop .help)
  | "version" => plain (p.stop .version)
  | _ => .error .unknown

/-- Reads an argument that starts with one `-`: its letter, and what follows the letter. -/
def short (p : Progress) (letter : Char) (rest : List Char) : Except ArgumentFault Progress :=
  match letter, rest with
  | 'w', [] => p.option .word none
  | 'w', '=' :: value => p.option .word (some (String.ofList value))
  | 'w', value => p.option .word (some (String.ofList value))
  | 'h', _ => p.stop .help
  | 'V', _ => p.stop .version
  | _, _ => .error .unknown

/-- Reads an argument without a leading `-`: the value that is missing, or a positional. -/
def plain (p : Progress) (text : String) : Except ArgumentFault Progress :=
  match p.pending? with
  | some (slot, none) => .ok { p with pending? := some (slot, some text) }
  | _ => p.positional text

/-- Reads an argument before `--`. -/
def argument (p : Progress) (text : String) : Except ArgumentFault Progress :=
  match text.toList with
  | '-' :: '-' :: body =>
    match Value.splitAtEquals? body with
    | some (name, value) => p.long (String.ofList name) (some (String.ofList value))
    | none => p.long (String.ofList body) none
  | '-' :: letter :: rest => p.short letter rest
  | _ => p.plain text

/-- Reads arguments in order. -/
def arguments : Progress → List String → Except ArgumentFault Progress
  | p, [] => .ok p
  | p, text :: rest =>
    if text = "--" then rest.foldlM positional p
    else do arguments (← p.argument text) rest

end Progress

/-- Reads the arguments of the program. -/
def read (argv : List String) : Except ArgumentFault Arguments := do
  let p ← ({} : Progress).arguments argv
  return (← p.settle).settled

end Arguments

end AArch64
