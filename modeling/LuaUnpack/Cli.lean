import LuaUnpack.Chunk.Standard
import LuaUnpack.Cli.Arguments
import LuaUnpack.Host
import LuaUnpack.Log
import LuaUnpack.Unpack

/-!
# The command line

What the program does when it is called: it reads the settings and the script, unpacks
the script, and writes the program as a chunk or as pseudocode. Results are said in one
place, everything else in another.
-/

namespace LuaUnpack.Cli

/-- What stands before a line. -/
inductive Mark where
  | step | done | alert
deriving DecidableEq, Repr

/-- A line with its mark. -/
def Mark.line (mark : Mark) (text : String) : String :=
  (match mark with
    | step => "[*] "
    | done => "[+] "
    | alert => "[!] ") ++ text

/-- The lines that come first. -/
def banner : List String :=
  [programName ++ ": MoonSec V3 devirtualizer", Text.repeated 50 "=", ""]

/-- The error inside an error, as text. -/
def innerMessage? : LuaUnpack.Error → Option String
  | .parse error => some error.message
  | .eval error => some error.message
  | .transport error => some error.message
  | .bytecode error => some error.message
  | .solver error => some error.message
  | .unsupportedVariant _ => none
  | .missing _ => none

/-- The message for a script that cannot be unpacked: the error and the one inside it. -/
def failureMessage (error : LuaUnpack.Error) : String :=
  ": ".intercalate (["Deobfuscation failed", error.message] ++ (innerMessage? error).toList)

/-- A time in milliseconds as seconds with two places. -/
def secondsText (milliseconds : Nat) : String :=
  let hundredths := (milliseconds + 5) / 10
  toString (hundredths / 100) ++ "." ++ Text.padLeft '0' 2 (toString (hundredths % 100)) ++ "s"

section

variable {m : Type → Type} [Monad m]

/-- A call of the program, which can fail with a message. -/
abbrev Call (m : Type → Type) := ExceptT String m

variable (host : Host m)

/-- The settings at a path, or the usual ones. -/
def loadConfig : Option String → Call m Config
  | none => pure {}
  | some path => do
    match ← (Config.load host.toDisk path : m (Except Config.Error Config)) with
    | .ok config => return config
    | .error error => throw s!"Failed to load config {path}: {error.message}"

/-- Writes a file. -/
def writeFile (path : String) (bytes : List UInt8) : Call m Unit := do
  match ← host.write path bytes with
  | .ok () => return
  | .error fault => throw s!"Failed to write {path}: {fault.message}"

/-- Says how large a program is. -/
def saySummary (program : Chunk.Prototype) : Call m Unit := do
  host.say <| Mark.done.line
    s!"Recovered {program.functionCount} function(s), {program.instructionCount} instruction(s)"
  let unresolved := program.unresolvedCount
  if 0 < unresolved then
    host.say <| Mark.alert.line <|
      s!"{unresolved} instruction(s) could not be identified, " ++
        "output for them is unreliable"

/-- Says the entries of the log that are shown. -/
def tellLog (arguments : Arguments) (records : List Log.Record) : Call m Unit := do
  for text in Log.shown (Log.Level.threshold arguments.isVerbose) records do
    host.tell text

/-- Writes a program as it is asked for. -/
def writeProgram (arguments : Arguments) (config : Config) (program : Chunk.Prototype) :
    Call m Unit := do
  let output := arguments.output
  match arguments.mode with
  | .bytecode =>
    let chunk := Chunk.Standard.write program
    tellLog host arguments ((Chunk.Standard.writeWarnings program).map Log.ofChunkWarning)
    writeFile host output chunk
    host.say (Mark.done.line s!"Bytecode ({chunk.length} bytes) saved to: {output}")
  | .pseudocode =>
    writeFile host output (Text.toBytes (Pseudocode.render config.style program))
    host.say (Mark.done.line s!"Pseudocode saved to: {output}")

/-- Does what is asked for. -/
def perform (arguments : Arguments) : Call m Unit := do
  let input := arguments.input
  let .file bytes ← host.look input | throw s!"Input file not found: {input}"
  let config ← loadConfig host arguments.config
  let start ← host.clock
  host.say (Mark.step.line s!"Reading script: {input}")
  let (result, events) := (Unpack.unpack config (Text.ofBytes bytes)).outcome
  tellLog host arguments (events.filterMap Log.ofEvent?)
  match result with
  | .error error => throw (failureMessage error)
  | .ok program =>
    saySummary host program
    writeProgram host arguments config program
    host.say ""
    let time := secondsText ((← host.clock) - start)
    host.say (Mark.done.line s!"Devirtualization complete in {time}")

/-- Says lines about results. -/
def sayAll (lines : List String) : m Unit := lines.forM host.say

/-- Runs the program with arguments; the result is its exit code. -/
def run (arguments : List String) : m Nat := do
  match parse arguments with
  | .ok arguments =>
    sayAll host banner
    match ← (perform host arguments).run with
    | .ok () => return 0
    | .error message =>
      host.tell (Mark.alert.line message)
      return 1
  | .error .help =>
    sayAll host helpLines
    return 0
  | .error .version =>
    host.say versionLine
    return 0
  | .error (.usage error) =>
    host.tell error.message
    return 2

end

end LuaUnpack.Cli
