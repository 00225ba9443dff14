import LuaUnpack.Chunk.Bytes
import LuaUnpack.Dispatch.Path
import LuaUnpack.Lua.Eval
import LuaUnpack.Transport

/-!
# Why a script cannot be unpacked

Each step of unpacking has errors of its own; here they come together with those
for a script that does not look as a packed one should.
-/

namespace LuaUnpack

/-- Why a script cannot be unpacked. -/
inductive Error where
  | parse (error : Lua.ParseError)
  | eval (error : Lua.EvalError)
  | transport (error : Transport.Error)
  | bytecode (error : Chunk.Error)
  | solver (error : Dispatch.Error)
  | unsupportedVariant (what : String)
  | missing (what : String)
deriving DecidableEq, Repr

/-- The message for an error. -/
def Error.message : Error → String
  | parse error => s!"Parse error: {error.message}"
  | eval error => s!"Key evaluation failed: {error.message}"
  | transport error => s!"Transport decoding failed: {error.message}"
  | bytecode error => s!"Bytecode error: {error.message}"
  | solver error => s!"Control flow solver failed: {error.message}"
  | unsupportedVariant what => s!"Unsupported packer variant: {what}"
  | missing what => s!"Could not locate {what} in the script"

end LuaUnpack
