import LuaUnpack.Dispatch.Cascade
import LuaUnpack.Error
import LuaUnpack.Handler.Fingerprint
import LuaUnpack.Handler.Simplify
import LuaUnpack.Handler.Window
import LuaUnpack.Script.Analysis
import LuaUnpack.Width

/-!
# Handlers by number

The dispatch of the machine gives the code for each handler number. Its windows,
simplified, are the operations that the handler carries out, one per instruction.
-/

namespace LuaUnpack.Handler

open LuaUnpack.Lua

/-- What a handler does for one instruction. -/
structure MicroOp where
  body : Block
  fingerprint : String

/-- The operation with a given code. -/
def MicroOp.ofBlock (body : Block) : MicroOp := ⟨body, Handler.fingerprint body⟩

/-- Handlers by number; each is a list of operations in the order in which they are
    carried out. -/
abbrev Mapping := Dict Int32 (List MicroOp)

/-- The operations of the code for a handler number. -/
def microOps (limit : Nat) (body : Block) : List MicroOp :=
  (windows body).map fun window => .ofBlock (simplify limit window).1

/-- A state as the number of a handler. -/
def opnumOf (state : Int) : Except Error Int32 :=
  if minSigned 32 ≤ state ∧ state ≤ maxSigned 32 then .ok (Int32.ofInt state)
  else .error (.unsupportedVariant s!"opcode number {state} out of range")

/-- The handlers of a dispatch. -/
def mappingOf (limit : Nat) (tree : Stmt) : Except Error Mapping := do
  match Dispatch.solve Script.stateRole tree with
  | .error e => throw (.solver e)
  | .ok solved => solved.mapM fun (state, body) => do return (← opnumOf state, microOps limit body)

end LuaUnpack.Handler
