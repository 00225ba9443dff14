import LuaUnpack.Chunk.Prototype
import LuaUnpack.Text.Numeral
import LuaUnpack.Unpack.Event

/-!
# Log

What a run has to say, as entries with a level and the part of the program that says
it.
-/

namespace LuaUnpack.Log

/-- How important an entry is, the most important first. -/
inductive Level where
  | error | warn | info | debug | trace
deriving DecidableEq, Repr

namespace Level

/-- All levels. -/
def all : List Level := [error, warn, info, debug, trace]

/-- The name of a level. -/
def name : Level → String
  | error => "ERROR"
  | warn => "WARN"
  | info => "INFO"
  | debug => "DEBUG"
  | trace => "TRACE"

/-- The place of a level among all. -/
def rank : Level → Nat
  | error => 0
  | warn => 1
  | info => 2
  | debug => 3
  | trace => 4

/-- The least important level that is shown. -/
def threshold (isVerbose : Bool) : Level := if isVerbose then debug else info

/-- Whether a level is shown. -/
def isShown (threshold level : Level) : Bool := level.rank ≤ threshold.rank

end Level

/-- An entry of the log. -/
structure Record where
  level : Level
  /-- The part of the program. -/
  source : String
  message : String
deriving DecidableEq, Repr

/-- An entry of the log as text. -/
def Record.text (r : Record) : String :=
  Text.padRight 5 r.level.name ++ " [" ++ r.source ++ "] " ++ r.message

/-- How important a finding is. -/
def levelOf : Unpack.Notice → Level
  | .skippedTable _ => .debug
  | _ => .info

/-- The part of the program that says a finding. -/
def sourceOf : Unpack.Notice → String
  | .skippedTable _ => "deobfuscation::strings"
  | _ => "deobfuscation::pipeline"

/-- The entries for events; stages show otherwise. -/
def ofEvent? : Unpack.Event → Option Record
  | .stage _ => none
  | .notice notice => some ⟨levelOf notice, sourceOf notice, notice.message⟩
  | .warning warning => some ⟨.warn, "deobfuscation::devirtualizer", warning.message⟩

/-- The entry for a warning about a chunk that is written. -/
def ofChunkWarning (message : String) : Record := ⟨.warn, "bytecode::serializer", message⟩

/-- The records that are shown, as texts. -/
def shown (threshold : Level) (records : List Record) : List String :=
  (records.filter fun r => threshold.isShown r.level).map Record.text

end LuaUnpack.Log
