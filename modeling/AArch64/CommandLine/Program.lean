import AArch64.CommandLine.Listing

/-!
# The program

The classifier as a function of its arguments and of its environment, which holds the files, says
which log messages are shown and where a log file goes. It answers with what it prints and with its
exit status.

## Main definitions

* `AArch64.Environment` — what the program reads besides its arguments.
* `AArch64.Report` — what it prints, and its exit status.
* `AArch64.Program.run` — the program.
-/

set_option autoImplicit false

namespace AArch64

/-- What the program reads besides its arguments. -/
structure Environment where
  /-- The bytes of a file, or why it cannot be read. -/
  file : String → Except String (List (BitVec 8))
  /-- Which log messages are shown. -/
  shows : Log.Filter := .standard
  /-- The path of the log file, if one is asked for. -/
  logPath : String := ""

/-- The bytes of the file that is named, and none if no file is. -/
def Environment.bytes (env : Environment) : Option String → Except String (List (BitVec 8))
  | none => .ok []
  | some path => (env.file path).mapError fun e => s!"{path}: {e}"

/-- What the program prints, and its exit status. -/
structure Report where
  /-- The exit status. -/
  status : Nat
  /-- The output. -/
  output : List Printed
  /-- The lines of error output. -/
  errors : List String
  /-- The messages in the log file. -/
  logged : List Log.Message
  deriving DecidableEq

/-- What the program prints when it is asked for help. -/
def usage : List String :=
  ["Classifies A64 and C64 instruction words",
   "",
   "Usage: armkit [OPTIONS] [INPUT]",
   "",
   "Arguments:",
   "  [INPUT]  Raw little-endian code to decode",
   "",
   "Options:",
   "  -w, --word <WORDS>       Instruction word in hex, decoded after the input file. Repeatable",
   "      --isa <ISA>          Instruction set in effect at offset 0 [default: a64]",
   "      --switch <SWITCHES>  Instruction-set switch as OFFSET=ISA, with OFFSET in bytes. " ++
     "Repeatable",
   "      --log-file           Log to a file in the temp directory instead of stdout",
   "  -h, --help               Print help",
   "  -V, --version            Print version"]

/-- What the program says when its arguments are refused. -/
def ArgumentFault.message : ArgumentFault → String
  | .unknown => "unexpected argument found"
  | .malformedValue => "invalid value for an argument"
  | .missingValue => "a value is required for an argument but none was supplied"
  | .repeated => "an argument cannot be used multiple times"
  | .needlessValue => "unexpected value for an argument found; no more were expected"
  | .help => "\n".intercalate usage
  | .version => "armkit 0.1.0"

namespace Program

/-- The line that says that there are no words. -/
def nothingToDecode : String :=
  "Error: \"nothing to decode: pass an input file or --word\""

/-- Lists the words of the file that the arguments name and of the arguments. The log goes to a file
if the arguments ask for one, and to the output otherwise. -/
def list (env : Environment) (a : Arguments) : Report :=
  let notes := if a.logFile then [s!"Logging to file: {env.logPath}"] else []
  match env.bytes a.input? with
  | .error e =>
    { status := 1, output := [], errors := notes ++ [s!"Error: {e.quote}"], logged := [] }
  | .ok file =>
    let printed := (Listing.printed a file).filter (·.isShown env.shows)
    let isEmpty := (Listing.code a file).isEmpty
    { status := if isEmpty then 1 else 0
      output := if a.logFile then printed.filter (·.isLine) else printed
      errors := notes ++ if isEmpty then [nothingToDecode] else []
      logged := if a.logFile then printed.filterMap (·.message?) else [] }

/-- The program. Refused arguments exit with 2. -/
def run (env : Environment) (argv : List String) : Report :=
  match Arguments.read argv with
  | .ok a => list env a
  | .error f =>
    if f = .help ∨ f = .version then
      { status := 0, output := [.line f.message], errors := [], logged := [] }
    else { status := 2, output := [], errors := [s!"error: {f.message}"], logged := [] }

end Program

end AArch64
