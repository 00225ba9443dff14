import LuaUnpack.Lua.Mapper
import LuaUnpack.Lua.Node
import LuaUnpack.Lua.Symbols
import LuaUnpack.Script.Context
import LuaUnpack.Text.Blank

/-!
# Reading the loader

The loader of a packed script always has the same shape: its local functions come in
a fixed order, and three of them tell how prototypes are laid out, how the machine is
entered, and which local of the machine plays which role. One walk over the script
collects this together with the payload and the expressions for the keys.
-/

namespace LuaUnpack.Script

open LuaUnpack.Lua LuaUnpack.Chunk

/-- The name for the state of the machine's dispatch. -/
def stateRole : String := "enum"

/-! ## Finding functions and dispatches -/

/-- Whether a statement is an `if` whose first condition has a name on its left. -/
def isDispatchOn (state : String) : Stmt → Bool
  | .ifThen (.binary _ left _) _ _ => left.isName state
  | _ => false

/-- The first dispatch on a state in a block, at any depth. -/
def findDispatch? (state : String) (block : Block) : Option Stmt :=
  block.statements.find? (isDispatchOn state)

/-- The function that a statement declares as a local. -/
def localFunction? : Stmt → Option FuncBody
  | .localFunction _ function => some function
  | _ => none

/-- The local functions of a block, at any depth, each before those in it. -/
def localFunctions (block : Block) : List FuncBody := block.statements.filterMap localFunction?

/-- Changes the body of the local function with a number, and numbers the local
    functions on the way. -/
def localFunctionMapper {ε : Type} (target : Nat) (change : Block → Except ε Block) :
    Mapper (StateT Nat (Except ε)) where
  stmt
    | .localFunction name ⟨params, isVararg, body⟩, inner => do
      let ordinal ← modifyGet fun k => (k, k + 1)
      if ordinal = target then
        return .localFunction name ⟨params, isVararg, ← (change body : Except ε Block)⟩
      else
        inner
    | _, inner => inner

/-- Changes the body of the local function with a number. -/
def changeLocalFunction {ε : Type} (target : Nat) (change : Block → Except ε Block)
    (root : Block) : Except ε Block :=
  ((localFunctionMapper target change).onBlock root).run' 0

/-! ## What the local functions tell -/

namespace Analysis

/-- What the local function with a number is for. -/
inductive Role where
  | layout
  | entry
  | machine
deriving DecidableEq, Repr

/-- The role of the local function with a number. -/
def role? : Nat → Option Role
  | 8 => some .layout
  | 10 => some .entry
  | 11 => some .machine
  | _ => none

/-- The section that a loop of the layout function reads, by the number of
    statements in its body. -/
def loopSection? : Nat → Option Section
  | 1 => some .functions
  | 2 => some .instructions
  | 4 => some .constants
  | _ => none

/-- The kinds of constants in the order in which their tags are compared. -/
def tagKinds : List ConstantKind := [.boolean, .number, .string]

/-- The tag that an expression compares with, if it is a test for equality. -/
def tag? : Expr → Option (Except Error UInt8)
  | .binary .eq _ (.number x) => some (.ok (Decimal.Binary64.toUInt8 x))
  | .binary .eq _ right =>
    some (.error (.unsupportedVariant
      ("constant type test against `" ++ right.print ++ "` instead of a number")))
  | _ => none

/-- Reads the tags of constants off the loop over them. -/
def readTags (body : Block) (f : Findings) : Except Error Findings := do
  let tags ← (body.expressions.filterMap tag?).mapM id
  if tags.length < tagKinds.length then
    throw (.unsupportedVariant
      s!"constant loop compares against {tags.length} type tags, expected {tagKinds.length}")
  return (tags.zip tagKinds).foldl (fun f pair => f.setTag pair.1 pair.2) f

/-- Reads one statement of the layout function. -/
def readLayoutStmt (f : Findings) : Stmt → Except Error Findings
  | .assign .. => .ok (f.addSection .numParams)
  | .numericFor _ _ _ _ body =>
    match loopSection? body.length with
    | some .constants => do return (← readTags body f).addSection .constants
    | some part => .ok (f.addSection part)
    | none => .ok f
  | _ => .ok f

/-- Reads the layout of prototypes off the function that loads one. -/
def readLayout (body : Block) (f : Findings) : Except Error Findings :=
  body.foldlM readLayoutStmt f

/-- The roles of the parameters of the function that enters the machine. -/
def entryParams : List String := ["proto", "upv", "env"]

/-- Reads the names of the function that enters the machine. -/
def readEntry (name : String) (params : List String) (f : Findings) : Except Error Findings := do
  if params.length < entryParams.length then
    throw (.unsupportedVariant
      s!"prototype wrapper takes {params.length} parameters, expected {entryParams.length}")
  let f := f.identify name "wrap_proto"
  return (params.zip entryParams).foldl (fun f pair => f.identify pair.1 pair.2) f

/-- The roles of the locals of the machine, by their place. -/
def machineLocals : List (Nat × String) :=
  [(0, "insts"), (1, "protos"), (2, "params"), (4, "_R"), (5, "pc"), (6, "top"), (7, "vararg"),
   (9, "args"), (10, "pcount"), (11, "lupv"), (12, "stk"), (14, "varargz"), (15, "inst"),
   (16, stateRole)]

/-- The locals that the statements of a block declare themselves. -/
def declaredNames (body : Block) : List String :=
  body.flatMap fun
    | .localVars names _ => names
    | _ => []

/-- Reads the roles of the locals of the machine. -/
def readMachineLocals (names : List String) (f : Findings) : Except Error Findings :=
  machineLocals.foldlM (fun f (index, role) =>
    match names[index]? with
    | some name => .ok (f.identify name role)
    | none => .error (.unsupportedVariant
        s!"VM wrapper declares {names.length} locals, no slot {index} for '{role}'")) f

/-- The place of the dispatch state among the locals of the machine. -/
def stateIndex : Nat := 16

/-- Reads the roles of the locals of the machine and makes sure that it has a
    dispatch. -/
def readMachine (body : Block) (ordinal : Nat) (f : Findings) : Except Error Findings := do
  let names := declaredNames body
  let f ← readMachineLocals names f
  let some state := names[stateIndex]? | throw (.missing "dispatch state variable")
  if (findDispatch? state body).isNone then
    throw (.missing "VM dispatch tree")
  return f.setWrapper ordinal

/-- The names of the fields of an instruction, by their place. -/
def operandField? : Int → Option String
  | 1 => some "OP_ENUM"
  | 2 => some "OP_A"
  | 3 => some "OP_B"
  | 4 => some "OP_C"
  | _ => none

/-- Reads the role of a local off its only value. -/
def readLocal (name : String) (value : Expr) (f : Findings) : Findings :=
  match value with
  | .number x =>
    match operandField? (Decimal.Binary64.toInt64 x).toInt with
    | some role => f.identify name role
    | none => f
  | .binary _ left _ => if left.isName "unpack" then f.identify name "unpack" else f
  | _ => f

/-! ## The walk -/

/-- Whether a local gets another value after its declaration. -/
def isReassigned (symbols : SymbolTable) (name : String) : Bool :=
  match symbols.get? name with
  | some info => info.assignments != 0
  | none => true

/-- Whether an expression is one for a key: something plus a call. -/
def isKey : Expr → Bool
  | .binary .add _ right => right.isCall
  | _ => false

/-- The walk does not look into locals that change, nor into keys. -/
def enters (symbols : SymbolTable) : Node → Bool
  | .stmt (.localVars [name] [_]) => !isReassigned symbols name
  | .expr e => !isKey e
  | _ => true

/-- What the walk has found, and how many local functions it has met. -/
structure Progress where
  findings : Findings
  functions : Nat := 0

/-- Reads a local function according to its number. -/
def readFunction (ordinal : Nat) (name : String) (function : FuncBody) (f : Findings) :
    Except Error Findings :=
  match role? ordinal with
  | some .layout => readLayout function.body f
  | some .entry => readEntry name function.params f
  | some .machine => readMachine function.body ordinal f
  | none => .ok f

/-- Reads one node. -/
def readNode (symbols : SymbolTable) (p : Progress) : Node → Except Error Progress
  | .stmt (.localFunction name function) => do
    return ⟨← readFunction p.functions name function p.findings, p.functions + 1⟩
  | .stmt (.localVars [name] [value]) =>
    .ok <|
      if isReassigned symbols name then p
      else { p with findings := readLocal name value p.findings }
  | .expr (.call _ [.name _, .string payload]) =>
    .ok { p with findings := p.findings.setPayload (Text.trimChar '\x22' payload.raw) }
  | .expr e => .ok (if isKey e then { p with findings := p.findings.addKey e } else p)
  | _ => .ok p

end Analysis

/-- Collects what a script says about its data, after what is known from outside. -/
def analyze (known : Findings) (root : Block) : Except Error Context := do
  let symbols := SymbolTable.ofBlock root
  let nodes := root.nodesWhere (Analysis.enters symbols)
  let progress ← nodes.foldlM (Analysis.readNode symbols) { findings := known }
  progress.findings.build

end LuaUnpack.Script
