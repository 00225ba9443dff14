import LuaUnpack.Files
import LuaUnpack.Handler.Simplify
import LuaUnpack.Json
import LuaUnpack.Pseudocode
import LuaUnpack.Recover.Entry
import LuaUnpack.Width

/-!
# Settings

What can be set for a run, and how settings are read from and written to files.
-/

namespace LuaUnpack

/-- The settings of a run. -/
structure Config where
  /-- How the text starts that the packer's check of itself compares with. -/
  entryMarker : String := Recover.defaultMarker
  /-- Whether a script inside a script is looked for. -/
  antiTamper : Bool := true
  /-- The most passes that the simplification of a handler takes. -/
  maxPasses : Nat := Handler.defaultPasses
  /-- How pseudocode is laid out. -/
  style : Pseudocode.Style := {}
deriving DecidableEq, Repr

namespace Config

/-! ## Errors -/

/-- What is wrong with a setting. -/
inductive Flaw where
  | emptyMarker
  | noPasses
  | visibleIndent
deriving DecidableEq, Repr

/-- What a flaw says about its setting. -/
def Flaw.message : Flaw → String
  | emptyMarker => "entry_marker must not be empty"
  | noPasses => "max_rewrite_passes must be greater than 0"
  | visibleIndent => "pseudocode_indent must be whitespace"

/-- Why there are no settings. -/
inductive Error where
  | notFound (path : String)
  | unreadable (reason : String)
  | unwritable (reason : String)
  | malformed
  | unsupportedFormat (extension : String)
  | invalid (flaw : Flaw)
deriving DecidableEq, Repr

/-- The message for an error. -/
def Error.message : Error → String
  | notFound path => s!"Config file not found: {path}"
  | unreadable reason | unwritable reason => s!"IO error: {reason}"
  | malformed => "Parse error: not the JSON of a config"
  | unsupportedFormat extension => s!"Unsupported config format: {extension}"
  | invalid flaw => s!"Invalid config: {flaw.message}"

/-! ## Settings that can be used -/

/-- The first flaw of settings. -/
def flaw? (config : Config) : Option Flaw :=
  if config.entryMarker.isEmpty then some .emptyMarker
  else if config.maxPasses = 0 then some .noPasses
  else if config.style.indent.toList.any (!Text.isBlank ·) then some .visibleIndent
  else none

/-- Settings without flaws. -/
def checked (config : Config) : Except Error Config :=
  match config.flaw? with
  | some flaw => .error (.invalid flaw)
  | none => .ok config

/-! ## Reading and writing -/

/-- The largest number that a setting can have. -/
def largestNumber : Nat := maxUnsigned 64

/-- The names of the settings in their order. -/
def fieldNames : List String :=
  ["entry_marker", "anti_tamper", "max_rewrite_passes", "pseudocode_indent", "pseudocode_header"]

/-- Settings with a field set; a field that there is not is no error. -/
def setField (config : Config) (field : String × Json) : Option Config :=
  let value := field.2
  match field.1 with
  | "entry_marker" => value.asText?.map fun entryMarker => { config with entryMarker }
  | "anti_tamper" => value.asBool?.map fun antiTamper => { config with antiTamper }
  | "max_rewrite_passes" =>
    (value.asNat? largestNumber).map fun maxPasses => { config with maxPasses }
  | "pseudocode_indent" =>
    value.asText?.map fun indent => { config with style := { config.style with indent } }
  | "pseudocode_header" =>
    value.asBool?.map fun hasHeader => { config with style := { config.style with hasHeader } }
  | _ => some config

/-- Settings with the given fields; the others have their defaults. -/
def ofFields? (fields : List (String × Json)) : Option Config :=
  let known := (fields.map (·.1)).filter fieldNames.contains
  if known.eraseDups.length < known.length then none
  else fields.foldlM setField {}

/-- Settings from JSON: an object with some of the fields, or an array with the values
    of the first fields. -/
def ofJson? : Json → Option Config
  | .object members => do
    ofFields? (← members.mapM fun (key, value) => do return (← (Json.string key).asText?, value))
  | .array items =>
    if fieldNames.length < items.length then none else ofFields? (fieldNames.zip items)
  | _ => none

/-- Settings from a text. -/
def parse (text : String) : Except Error Config :=
  match (Json.parse? text).bind ofJson? with
  | some config => config.checked
  | none => .error .malformed

/-- Settings as a text, a field on each line. -/
def print (config : Config) : String :=
  let truth (value : Bool) : String := if value then "true" else "false"
  let values := [Json.quoted config.entryMarker, truth config.antiTamper,
    toString config.maxPasses, Json.quoted config.style.indent, truth config.style.hasHeader]
  let lines := (fieldNames.zip values).map fun (name, value) =>
    "  " ++ Json.quoted name ++ ": " ++ value
  "\x7b\n" ++ ",\n".intercalate lines ++ "\n\x7d"

/-- What follows the last dot of a name, unless the dot is its first character. -/
def dotted? (name : String) : Option String :=
  match (Text.cutAt '.' name.toList).reverse with
  | last :: before =>
    if before.isEmpty || before == [[]] || name == ".." then none else some (String.ofList last)
  | [] => none

/-- The extension of a path. -/
def extension? (path : String) : Option String :=
  ((pathNames path).filter (· != ".")).getLast?.bind dotted?

/-- The format of settings, and the extension of their files. -/
def format : String := "json"

/-- Settings from the bytes of a file. -/
def ofBytes (bytes : List UInt8) : Except Error Config :=
  match Text.ofValidBytes? bytes with
  | some text => parse text
  | none => .error (.unreadable "stream did not contain valid UTF-8")

/-- Settings from what stands at a path. A name without extension is one of the usual
    format. -/
def ofEntry (path : String) (entry : Entry) : Except Error Config :=
  let extension := (extension? path).getD format
  if entry = .missing then .error (.notFound path)
  else if extension.toLower != format then .error (.unsupportedFormat extension)
  else
    match entry.read with
    | .ok bytes => ofBytes bytes
    | .error fault => .error (.unreadable fault.message)

section

variable {m : Type → Type} [Monad m]

/-- Reads settings from a file. -/
def load (disk : Disk m) (path : String) : m (Except Error Config) := do
  return ofEntry path (← disk.look path)

/-- Writes settings to a file. -/
def save (config : Config) (disk : Disk m) (path : String) : m (Except Error Unit) := do
  match ← disk.write path (Text.toBytes config.print) with
  | .ok () => return .ok ()
  | .error fault => return .error (.unwritable fault.message)

end

end Config

end LuaUnpack
