import AArch64.CommandLine.Program

/-!
# The classifier

The executable: gives the program its environment, and prints what the program answers.
-/

set_option autoImplicit false

namespace AArch64

/-- The bytes of a file, or why it cannot be read. -/
def readFile (path : String) : IO (Except String (List (BitVec 8))) := do
  match ← (IO.FS.readBinFile path).toBaseIO with
  | .ok bytes => return .ok (bytes.toList.map fun b => BitVec.ofNat 8 b.toNat)
  | .error e => return .error (toString e)

/-- The environment of the program: the file that the arguments name, the filter that the variable
`AARCH64_LOG` names, and a log file named after the time. -/
def environment (argv : List String) : IO Environment := do
  let path? := (Arguments.read argv).toOption.bind (·.input?)
  let file ← (path?.map readFile).getD (pure (.ok []))
  let name? ← IO.getEnv "AARCH64_LOG"
  return {
    file := fun _ => file
    shows := (name?.bind Log.Filter.ofText?).getD .standard
    logPath := s!"/tmp/armkit-{← IO.monoMsNow}.log" }

/-- Prints a report. -/
def Report.print (env : Environment) (r : Report) : IO UInt32 := do
  r.output.forM fun p => IO.println p.text
  r.errors.forM IO.eprintln
  unless r.logged.isEmpty do
    IO.FS.writeFile env.logPath ("\n".intercalate (r.logged.map (·.line)) ++ "\n")
  return r.status.toUInt32

end AArch64

open AArch64 in
/-- The program. -/
def main (argv : List String) : IO UInt32 := do
  let env ← environment argv
  (Program.run env argv).print env
