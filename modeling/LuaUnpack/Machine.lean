import LuaUnpack.Dict
import LuaUnpack.Host
import LuaUnpack.Text.Bytes

/-!
# A machine

A host as a plain value: the files of a machine and what was said on it. A path is
followed name by name, from the root or from the directory in which the program was
started, and only a directory leads on.

* `Machine.look` finds what stands at a path; a path that cannot be followed leads
  nowhere.
* `Machine.write` makes a file or replaces it, and says why it cannot.
* `Machine.host` is the machine for a program; no time passes on it.
-/

namespace LuaUnpack

/-- A place by the names that lead to it from the root. -/
abbrev Machine.Place := List String

/-- What becomes of the data that is written to a device: it vanishes, it finds no
    room, or it is said. -/
inductive Machine.Device where
  | null
  | full
  | results
  | messages
deriving DecidableEq, Repr

/-- What stands at a place. -/
inductive Machine.Node where
  | directory
  | device (device : Machine.Device)
  | file (bytes : List UInt8)
deriving DecidableEq, Repr

/-- What the program sees of a node. -/
def Machine.Node.entry : Machine.Node → Entry
  | directory => .directory
  | device _ => .device
  | file bytes => .file bytes

/-- A machine. -/
structure Machine where
  /-- What stands where; a directory need not be listed if something is in it. -/
  nodes : Dict Machine.Place Machine.Node := []
  /-- The place from which paths lead that do not start at the root. -/
  home : Machine.Place := []
  /-- What was said about results. -/
  results : List UInt8 := []
  /-- What was said about everything else. -/
  messages : List UInt8 := []
deriving Repr

namespace Machine

/-! ## Limits -/

/-- The most bytes that a name can have. -/
def maxName : Nat := 255

/-- The most bytes that a path can have. -/
def maxPath : Nat := 4095

/-- Why a path leads nowhere, whatever the files are. -/
def flaw? (path : String) : Option FileFault :=
  if path.toList.contains '\x00' then some .zeroInName
  else if path.isEmpty then some .noSuchFile
  else if maxPath < path.utf8ByteSize then some .nameTooLong
  else none

/-! ## Following paths -/

/-- What stands at a place. -/
def node? (m : Machine) (place : Place) : Option Node :=
  match Dict.get? place m.nodes with
  | some node => some node
  | none =>
    if place.isEmpty || m.nodes.any (fun node => place.isPrefixOf node.1) then some .directory
    else none

/-- Whether a place is a directory. -/
def isDirectory (m : Machine) (place : Place) : Bool := m.node? place == some .directory

/-- The place to which a name leads. -/
def step (m : Machine) (place : Place) (name : String) : Except FileFault Place :=
  if !m.isDirectory place then .error .notADirectory
  else if name == "." then .ok place
  else if name == ".." then .ok place.dropLast
  else if maxName < name.utf8ByteSize then .error .nameTooLong
  else if (m.node? (place ++ [name])).isSome then .ok (place ++ [name])
  else .error .noSuchFile

/-- The place at which a path starts. -/
def start (m : Machine) (path : String) : Place := if path.startsWith "/" then [] else m.home

/-- What stands at a path. Only a directory can have a slash after it. -/
def look (m : Machine) (path : String) : Entry :=
  match flaw? path, (pathNames path).foldlM m.step (m.start path) with
  | none, .ok place =>
    match m.node? place with
    | some node => if path.endsWith "/" && node != .directory then .missing else node.entry
    | none => .missing
  | _, _ => .missing

/-! ## Writing -/

/-- Whether a name at the end of a path can only be that of a directory. -/
def isDots (name : String) : Bool := name == "." || name == ".."

/-- Says something about results. -/
def addResult (m : Machine) (bytes : List UInt8) : Machine :=
  { m with results := m.results ++ bytes }

/-- Says something about everything else. -/
def addMessage (m : Machine) (bytes : List UInt8) : Machine :=
  { m with messages := m.messages ++ bytes }

/-- Writes to a device. -/
def feed (m : Machine) (bytes : List UInt8) : Device → Except FileFault Machine
  | .null => .ok m
  | .full => if bytes.isEmpty then .ok m else .error .noSpace
  | .results => .ok (m.addResult bytes)
  | .messages => .ok (m.addMessage bytes)

/-- Writes a file with a name in a directory. -/
def writeIn (m : Machine) (place : Place) (name : String) (bytes : List UInt8) :
    Except FileFault Machine :=
  match m.node? (place ++ [name]) with
  | some .directory => .error .isADirectory
  | some (.device device) => m.feed bytes device
  | _ => .ok { m with nodes := Dict.put (place ++ [name]) (.file bytes) m.nodes }

/-- Writes a file: the names before the last lead to its directory. -/
def write (m : Machine) (path : String) (bytes : List UInt8) : Except FileFault Machine := do
  if let some flaw := flaw? path then
    throw flaw
  let some name := (pathNames path).getLast? | throw .isADirectory
  let place ← (pathNames path).dropLast.foldlM m.step (m.start path)
  if !m.isDirectory place then
    throw .notADirectory
  if isDots name || path.endsWith "/" then
    throw .isADirectory
  if maxName < name.utf8ByteSize then
    throw .nameTooLong
  m.writeIn place name bytes

/-! ## Running programs -/

/-- A line with its end, as bytes. -/
def lineBytes (line : String) : List UInt8 := Text.toBytes (line ++ "\n")

/-- The machine as a host. -/
def host : Host (StateM Machine) where
  look path := return (← get).look path
  write path bytes := do
    match (← get).write path bytes with
    | .ok machine => set machine; return .ok ()
    | .error fault => return .error fault
  say line := modify fun m => m.addResult (lineBytes line)
  tell line := modify fun m => m.addMessage (lineBytes line)
  clock := return 0

/-! ## A machine to start with -/

/-- The directories that stand at the root of every machine. -/
def rootDirectories : List String :=
  ["bin", "boot", "dev", "etc", "home", "lib", "media", "mnt", "opt", "proc", "root", "run",
   "sbin", "srv", "sys", "tmp", "usr", "var"]

/-- The devices that every machine has. -/
def devices : List (String × Device) :=
  [("null", .null), ("zero", .null), ("random", .null), ("urandom", .null), ("full", .full),
   ("stdin", .null), ("stdout", .results), ("stderr", .messages)]

/-- A machine without files, on which a program is started in an empty directory. -/
def plain : Machine where
  nodes :=
    rootDirectories.map (fun name => ([name], .directory)) ++
      devices.map (fun (name, device) => (["dev", name], .device device)) ++
      [(["tmp", "start"], .directory)]
  home := ["tmp", "start"]

/-- The place at which the program is started, as a path. -/
def homePath (m : Machine) : String := "/" ++ "/".intercalate m.home

end Machine

end LuaUnpack
