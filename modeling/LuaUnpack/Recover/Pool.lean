import LuaUnpack.Recover.Warning

/-!
# Rebuilding constant pools

The constants of a function are renumbered in the order in which its code first
refers to them, and those it never refers to are dropped.
-/

namespace LuaUnpack.Recover

open LuaUnpack.Chunk

/-- The old indices of the constants used so far, in the order of their first use;
    the place of one is its new index. -/
abbrev Used := List Nat

/-- A computation that uses constants. -/
abbrev Pooling := StateT Used (Except Chunk.Error)

/-- What marks a constant in an operand that can also be a register. -/
def constantMark : Int := 256

/-- The new index of a constant. -/
def newIndex (pool : List Constant) (index : Int) : Pooling Int := do
  let used ← get
  if 0 ≤ index ∧ index < pool.length then
    match used.idxOf? index.toNat with
    | some k => return (k : Int)
    | none => do
      set (used ++ [index.toNat])
      return (used.length : Int)
  else
    throw (.constantOutOfRange index pool.length)

/-- An operand that refers to a constant, renumbered. -/
def constantOperand (pool : List Constant) (operand : Int32) : Pooling Int32 := do
  return Int32.ofInt (← newIndex pool operand.toInt)

/-- An operand that can be a register or a constant, renumbered. -/
def mixedOperand (pool : List Constant) (operand : Int32) : Pooling Int32 := do
  if constantMark ≤ operand.toInt then
    return Int32.ofInt ((← newIndex pool (operand.toInt - constantMark)) + constantMark)
  else
    return operand

/-- An instruction with its constants renumbered, those of `b` before those of
    `c`. -/
def poolInstruction (pool : List Constant) (i : Instruction) : Pooling Instruction :=
  match i.opcode with
  | .loadK | .getGlobal | .setGlobal => do
    return { i with b := ← constantOperand pool i.b }
  | .setTable | .eq | .lt | .le | .add | .sub | .mul | .div | .mod | .pow => do
    let b ← mixedOperand pool i.b
    let c ← mixedOperand pool i.c
    return { i with b, c }
  | .getTable | .self => do
    return { i with c := ← mixedOperand pool i.c }
  | _ => return i

/-- Code with its constants renumbered. -/
def poolCode (pool : List Constant) : List Instruction → Pooling (List Instruction)
  | [] => pure []
  | i :: rest => do
    let i ← poolInstruction pool i
    return i :: (← poolCode pool rest)

/-- The code and the constants of a function after renumbering. -/
def rebuildPool (code : List Instruction) (pool : List Constant) :
    Except Chunk.Error (List Instruction × List Constant) := do
  let (code, used) ← (poolCode pool code).run []
  return (code, used.filterMap fun k => pool[k]?)

/-- Rebuilds the constant pools of a program. -/
def rebuildPools (root : Prototype) : Step Prototype :=
  root.mapBody fun code pool => (rebuildPool code pool : Except Chunk.Error _)

end LuaUnpack.Recover
