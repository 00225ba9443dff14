import LuaUnpack.Dict
import LuaUnpack.Text.Numeral

/-!
# Arguments

The arguments of the program. An option has a long name, after two dashes, and can
have a letter, after one dash; letters can be put together. A value follows as the
next argument, after an equals sign, or directly after a letter. No option can be
given twice.
-/

namespace LuaUnpack.Cli

/-! ## Options -/

/-- An option without a value. -/
inductive Flag where
  | bytecode | pseudocode | verbose | noProgress
deriving DecidableEq, Repr

/-- An option with a value. -/
inductive Setting where
  | input | output | config
deriving DecidableEq, Repr

/-- An option; `help` and `version` end the reading of arguments. -/
inductive Choice where
  | flag (flag : Flag)
  | setting (setting : Setting)
  | help
  | version
deriving DecidableEq, Repr

/-- How an option is written and described. -/
structure Spelling where
  choice : Choice
  long : String
  short : Option Char := none
  /-- What a value is called. -/
  value : Option String := none
  about : String := ""

/-- The options in the order in which they are described. -/
def spellings : List Spelling :=
  [⟨.flag .bytecode, "bytecode", none, none, "Write a Lua 5.1 bytecode chunk"⟩,
   ⟨.flag .pseudocode, "pseudocode", none, none, "Write best-effort Lua pseudocode"⟩,
   ⟨.setting .input, "input", some 'i', some "INPUT", ""⟩,
   ⟨.setting .output, "output", some 'o', some "OUTPUT", ""⟩,
   ⟨.setting .config, "config", none, some "CONFIG", "JSON run configuration"⟩,
   ⟨.flag .verbose, "verbose", some 'v', none, ""⟩,
   ⟨.flag .noProgress, "no-progress", none, none, ""⟩,
   ⟨.help, "help", some 'h', none, "Print help"⟩,
   ⟨.version, "version", some 'V', none, "Print version"⟩]

/-- The option with a long name. -/
def longChoice? (name : String) : Option Choice :=
  (spellings.find? (·.long == name)).map (·.choice)

/-- The option with a letter. -/
def shortChoice? (letter : Char) : Option Choice :=
  (spellings.find? (·.short == some letter)).map (·.choice)

/-- The long name of an option. -/
def Choice.long (choice : Choice) : String :=
  ((spellings.find? (·.choice == choice)).map (·.long)).getD ""

/-! ## Reading -/

/-- Why arguments cannot be used. -/
inductive UsageError where
  | unexpected (argument : String)
  | unexpectedValue (option : String)
  | repeated (option : String)
  | noValue (option : String)
  | conflict
  | missing (option : String)
deriving DecidableEq, Repr

/-- The message for a usage error. -/
def UsageError.message : UsageError → String
  | unexpected argument => s!"error: unexpected argument '{argument}' found"
  | unexpectedValue option => s!"error: unexpected value for '--{option}' found"
  | repeated option => s!"error: the argument '--{option}' cannot be used multiple times"
  | noValue option => s!"error: a value is required for '--{option}' but none was supplied"
  | conflict => "error: the argument '--bytecode' cannot be used with '--pseudocode'"
  | missing option => s!"error: the argument '{option}' was not provided"

/-- Why the program does nothing. -/
inductive Stop where
  | usage (error : UsageError)
  | help
  | version
deriving DecidableEq, Repr

/-- The options given so far. -/
structure Given where
  flags : List Flag := []
  settings : Dict Setting String := []
deriving DecidableEq, Repr

namespace Given

/-- Notes a flag. -/
def addFlag (given : Given) (flag : Flag) : Except Stop Given :=
  if given.flags.contains flag then .error (.usage (.repeated (Choice.flag flag).long))
  else .ok { given with flags := given.flags ++ [flag] }

/-- Notes a value, which cannot be empty. -/
def addSetting (given : Given) (setting : Setting) (value : String) : Except Stop Given :=
  let option := (Choice.setting setting).long
  if (given.settings.get? setting).isSome then .error (.usage (.repeated option))
  else if value.isEmpty then .error (.usage (.noValue option))
  else .ok { given with settings := given.settings.put setting value }

end Given

/-- What an argument is by its first characters; one dash alone is a value. -/
inductive Shape where
  | long (name : String) (value : Option String)
  | letters (cluster : List Char)
  | endOfOptions
  | plain
deriving DecidableEq, Repr

/-- Cuts a text at its first equals sign. -/
def cutAtEquals (text : List Char) : String × Option String :=
  match text.dropWhile (· != '=') with
  | '=' :: value => (String.ofList (text.takeWhile (· != '=')), some (String.ofList value))
  | _ => (String.ofList text, none)

/-- The shape of an argument. -/
def Shape.of (argument : String) : Shape :=
  match argument.toList with
  | ['-', '-'] => .endOfOptions
  | '-' :: '-' :: rest =>
    let (name, value) := cutAtEquals rest
    .long name value
  | '-' :: letter :: rest => .letters (letter :: rest)
  | _ => .plain

/-- The value that follows a letter directly, with or without an equals sign. -/
def attachedValue : List Char → String
  | '=' :: value => String.ofList value
  | value => String.ofList value

/-- Reads letters; the second result is an option that still needs a value. -/
def readLetters (given : Given) : List Char → Except Stop (Given × Option Setting)
  | [] => .ok (given, none)
  | letter :: rest =>
    match shortChoice? letter with
    | none => .error (.usage (.unexpected (String.ofList ['-', letter])))
    | some .help => .error .help
    | some .version => .error .version
    | some (.flag flag) => do readLetters (← given.addFlag flag) rest
    | some (.setting setting) =>
      if rest.isEmpty then .ok (given, some setting)
      else do return (← given.addSetting setting (attachedValue rest), none)

/-- Reads an argument that is an option; the second result is an option that still
    needs a value. -/
def readOption (given : Given) (argument : String) : Except Stop (Given × Option Setting) :=
  match Shape.of argument with
  | .letters cluster => readLetters given cluster
  | .long name value =>
    match longChoice? name, value with
    | none, _ => .error (.usage (.unexpected argument))
    | some .help, none => .error .help
    | some .version, none => .error .version
    | some (.flag flag), none => do return (← given.addFlag flag, none)
    | some (.setting setting), some value => do return (← given.addSetting setting value, none)
    | some (.setting setting), none => .ok (given, some setting)
    | some _, some _ => .error (.usage (.unexpectedValue name))
  | _ => .error (.usage (.unexpected argument))

/-- Reads arguments; `waiting` is an option that needs the next one as its value. -/
def readArguments (given : Given) (waiting : Option Setting) :
    List String → Except Stop Given
  | [] =>
    match waiting with
    | none => .ok given
    | some setting => .error (.usage (.noValue (Choice.setting setting).long))
  | argument :: rest =>
    match waiting, Shape.of argument with
    | some setting, .plain => do readArguments (← given.addSetting setting argument) none rest
    | some setting, _ => .error (.usage (.noValue (Choice.setting setting).long))
    | none, .endOfOptions =>
      match rest with
      | [] => .ok given
      | extra :: _ => .error (.usage (.unexpected extra))
    | none, _ => do
      let (given, waiting) ← readOption given argument
      readArguments given waiting rest

/-! ## What is to be done -/

/-- What is written about the program. -/
inductive Mode where
  | bytecode
  | pseudocode
deriving DecidableEq, Repr

/-- What the program is asked to do. -/
structure Arguments where
  mode : Mode
  input : String
  output : String
  config : Option String := none
  isVerbose : Bool := false
deriving DecidableEq, Repr

/-- The mode that is asked for. -/
def Given.mode (given : Given) : Except Stop Mode :=
  match given.flags.contains .bytecode, given.flags.contains .pseudocode with
  | true, true => .error (.usage .conflict)
  | true, false => .ok .bytecode
  | false, true => .ok .pseudocode
  | false, false => .error (.usage (.missing "<--bytecode|--pseudocode>"))

/-- The value of an option that has to be given. -/
def Given.required (given : Given) (setting : Setting) : Except Stop String :=
  match given.settings.get? setting with
  | some value => .ok value
  | none => .error (.usage (.missing ("--" ++ (Choice.setting setting).long)))

/-- Reads the arguments of the program. -/
def parse (arguments : List String) : Except Stop Arguments := do
  let given ← readArguments {} none arguments
  return {
    mode := ← given.mode
    input := ← given.required .input
    output := ← given.required .output
    config := given.settings.get? .config
    isVerbose := given.flags.contains .verbose }

/-! ## Help -/

/-- The name of the program. -/
def programName : String := "lua-devirt"

/-- The name of the program and its version. -/
def versionLine : String := programName ++ " 1.0.0"

/-- How an option is written, without what it is about. -/
def Spelling.text (s : Spelling) : String :=
  let short :=
    match s.short with
    | some letter => String.ofList ['-', letter, ',', ' ']
    | none => "    "
  let value :=
    match s.value with
    | some name => " <" ++ name ++ ">"
    | none => ""
  "  " ++ short ++ "--" ++ s.long ++ value

/-- What the program is for and how it is called. -/
def helpLines : List String :=
  let width := (spellings.map fun s => s.text.length).foldl max 0
  ["Devirtualizer for MoonSec V3 protected Lua scripts",
   "",
   "Usage: " ++ programName ++
     " [OPTIONS] --input <INPUT> --output <OUTPUT> <--bytecode|--pseudocode>",
   "",
   "Options:"] ++
    spellings.map fun s => s.text ++ Text.repeated (width - s.text.length + 2) " " ++ s.about

end LuaUnpack.Cli
