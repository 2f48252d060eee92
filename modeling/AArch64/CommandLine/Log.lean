/-!
# Log messages

What the program says about its own work, beside the listing. A message has a level, and the
environment of the program says by a filter which messages are shown. Where it says nothing, the
messages for a user are shown, and the ones for debugging are not.

## Main definitions

* `AArch64.Log.Message` — a message, with its level and its source.
* `AArch64.Log.Filter` — which messages are shown.
-/

set_option autoImplicit false

namespace AArch64

namespace Log

/-- What a message is for, the most urgent first. -/
inductive Level
  /-- A failure. -/
  | error
  /-- Something that is likely not meant. -/
  | warn
  /-- News. -/
  | info
  /-- Help in finding a mistake. -/
  | debug
  /-- Every step. -/
  | trace
  deriving DecidableEq

namespace Level

/-- The position of a level, from the most urgent one on. -/
def rank : Level → Nat
  | .error => 0
  | .warn => 1
  | .info => 2
  | .debug => 3
  | .trace => 4

/-- The text of a level. -/
def text : Level → String
  | .error => "ERROR"
  | .warn => "WARN"
  | .info => "INFO"
  | .debug => "DEBUG"
  | .trace => "TRACE"

end Level

/-- A log message. -/
structure Message where
  /-- How urgent it is. -/
  level : Level
  /-- The part of the program that it comes from. -/
  source : String
  /-- What happened. -/
  text : String
  /-- With which values, by their names. -/
  fields : List (String × String)
  deriving DecidableEq

/-- The line of a message, without the time. -/
def Message.line (m : Message) : String :=
  " ".intercalate (s!"{m.level.text} {m.source}: {m.text}" ::
    m.fields.map fun f => s!"{f.1}={f.2}")

/-- Which messages are shown. -/
abbrev Filter := Message → Bool

namespace Filter

/-- Shows the messages that are as urgent as a level. -/
def upTo (level : Level) : Filter :=
  fun m => m.level.rank ≤ level.rank

/-- The filter where the environment says nothing. -/
def standard : Filter :=
  upTo .info

/-- Shows no message. -/
def silent : Filter :=
  fun _ => false

/-- The filter with the given name: a level, or `off`. -/
def ofText? (s : String) : Option Filter :=
  match s.map Char.toLower with
  | "off" => some silent
  | "error" => some (upTo .error)
  | "warn" => some (upTo .warn)
  | "info" => some (upTo .info)
  | "debug" => some (upTo .debug)
  | "trace" => some (upTo .trace)
  | _ => none

end Filter

end Log

end AArch64
