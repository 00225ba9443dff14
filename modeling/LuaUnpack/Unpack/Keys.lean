import LuaUnpack.Decimal.Binary64
import LuaUnpack.Script.Context

/-!
# Keys

The keys of a script are given by expressions. The last one is the key of the data; if
there are exactly two, the first one is the key of the constants.
-/

namespace LuaUnpack.Unpack

open LuaUnpack.Lua LuaUnpack.Chunk LuaUnpack.Script

/-- The value of the expression for a key, as the script itself would calculate it:
    from its text, rounded to an integer. -/
def keyValue (key : Expr) : Except Error Int64 :=
  match Eval.sourceNumber ("return " ++ key.print) with
  | .ok x => .ok (Decimal.Binary64.roundToInt64 x)
  | .error error => .error (.eval error)

/-- The context with the keys of its script. -/
def solveKeys (context : Context) : Except Error Context := do
  let some last := context.keys.getLast? | throw (.missing "bytecode key expression")
  let bytecodeKey ← keyValue last
  let constantKey ←
    match context.keys with
    | [constant, _] => keyValue constant
    | _ => pure context.format.constantKey
  return context.withKeys constantKey bytecodeKey

/-- The program in the data of a script. -/
def readData (context : Context) : Except Error Prototype := do
  let data ← (Transport.decode context.payload context.bytecodeKey).mapError .transport
  (Packed.read context.format data).mapError .bytecode

end LuaUnpack.Unpack
