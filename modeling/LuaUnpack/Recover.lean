import LuaUnpack.Recover.Attributes
import LuaUnpack.Recover.ControlFlow
import LuaUnpack.Recover.Entry
import LuaUnpack.Recover.Pool
import LuaUnpack.Recover.Resolve

/-!
# Recovering a program

The steps that lead from packed instructions to a standard program.
-/

namespace LuaUnpack.Recover

open LuaUnpack.Chunk LuaUnpack.Handler

/-- The flag of a main program, which always takes further arguments. -/
def mainVararg : UInt8 := 2

/-- Recovers the program of a packed script. -/
def recover (mapping : Mapping) (catalog : Catalog) (marker : String) (root : Prototype) :
    Step Prototype := do
  let root ← resolveOpcodes mapping catalog root
  let root ← restoreControlFlow root
  let root ← rebuildPools (trimEntry marker root)
  let root ← Step.noting (setAttributes root)
  let root := { root with isVararg := mainVararg }
  let unresolved := root.unresolvedCount
  if 0 < unresolved then
    Step.warn [.leftUnresolved unresolved]
  return root

end LuaUnpack.Recover
