import LuaUnpack.Config
import LuaUnpack.Recover
import LuaUnpack.Script.Analysis
import LuaUnpack.Script.Constants
import LuaUnpack.Script.Flow
import LuaUnpack.Script.Fold
import LuaUnpack.Script.Rename
import LuaUnpack.Unpack.AntiTamper
import LuaUnpack.Unpack.Event

/-!
# Unpacking

From the text of a packed script to its program: the loader of the script is analysed,
its data is read, and the handlers of its machine tell which operations the
instructions stand for.
-/

namespace LuaUnpack.Unpack

open LuaUnpack.Lua LuaUnpack.Chunk LuaUnpack.Script

/-- A script in the form that analysis expects: locals have invented names, strings
    stand where they are used, constants are folded. -/
def normalize (root : Block) : Block :=
  let root := (rename root).1
  let root := (replaceConstants (stringConstants root) root).1
  (foldConstants root).1

/-- Reads a script and collects what it says about its data. -/
def analyzeScript (known : Findings) (source : String) : Run (Block × Context) := do
  Run.enter .analysis
  let root ← Run.lift ((parse source).mapError .parse)
  Run.note ((skippedTables root).map fun error => .notice (.skippedTable (.transport error)))
  let root := normalize root
  return (root, ← Run.lift (analyze known root))

/-- The dispatch of the machine of a script, with names for their roles. -/
def machineDispatch (root : Block) (context : Context) : Except Error Stmt := do
  if (localFunctions root)[context.wrapper]?.isNone then
    throw (.missing "VM wrapper function")
  let straighten (body : Block) : Except Error Block :=
    ((straightenFlow body).map (·.1)).mapError .solver
  let root ← changeLocalFunction context.wrapper straighten root
  let root := (renameWith context.names root).1
  match (localFunctions root)[context.wrapper]?.bind fun f => findDispatch? stateRole f.body with
  | some tree => return tree
  | none => throw (.missing "VM dispatch tree")

/-- Recovers the program of a script that has been analysed. -/
def recoverScript (config : Config) (root : Block) (context : Context) : Run Prototype := do
  let context ← Run.lift (solveKeys context)
  Run.enter .controlFlow
  let tree ← Run.lift (machineDispatch root context)
  Run.enter .data
  let program ← Run.lift (readData context)
  Run.note [.notice (.program program.functionCount program.instructionCount)]
  Run.enter .recovery
  let mapping ← Run.lift (Handler.mappingOf config.maxPasses tree)
  Run.note [.notice (.handlers mapping.length)]
  Run.ofStep (Recover.recover mapping Handler.standardCatalog config.entryMarker program)

/-- Unpacks a script, or the script inside it. -/
def unpack (config : Config) (source : String) : Run Prototype := do
  let (root, context) ← analyzeScript {} source
  if config.antiTamper && isWrapped root then
    Run.enter .antiTamper
    let inner ← Run.lift (unwrap root context)
    Run.note [.notice .innerScript]
    let known := ({} : Findings).withPayload inner.payload
    let (root, context) ← analyzeScript known inner.script
    recoverScript config root context
  else
    recoverScript config root context

end LuaUnpack.Unpack
