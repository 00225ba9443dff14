import LuaUnpack.Recover.Warning

/-!
# Attributes of functions

What a standard chunk stores about a function apart from its code is computed from
the code: whether it takes further arguments, how many registers it needs, and how
many upvalues the closures of the enclosing function give it.
-/

namespace LuaUnpack.Recover

open LuaUnpack.Chunk

/-- An integer as a byte, moved to the nearest one. -/
def clampByte (n : Int) : UInt8 := UInt8.ofNat (min 255 n.toNat)

/-- Whether code takes further arguments, as a flag of the function. -/
def varargFlag (code : List Instruction) : UInt8 :=
  if code.any (·.opcode == .varArg) then 2 else 0

/-- The registers that code needs: those up to the highest `a`. -/
def stackSize (code : List Instruction) : UInt8 :=
  clampByte (code.foldl (fun top i => max top i.a.toInt) 0 + 1)

/-- The number of upvalues that the last closure of a prototype gives it. -/
def upvalueCount? (code : List Instruction) (index : Nat) : Option UInt8 :=
  (code.reverse.find? fun i => i.opcode == .closure && i.b.toInt == (index : Int)).map fun i =>
    clampByte i.c.toInt

/-- The closures of code that refer to no prototype. -/
def missingPrototypes (code : List Instruction) (count : Nat) : List Warning :=
  (code.filter fun i =>
      i.opcode == .closure && !(0 ≤ i.b.toInt && i.b.toInt < (count : Int))).map fun i =>
    .missingPrototype i.b

mutual

/-- Computes the attributes of a prototype and of those in it. -/
def setAttributes : Prototype → Prototype × List Warning
  | ⟨name, code, constants, functions, params, upvalues, _, _⟩ =>
    let (nested, warnings) := setNestedAttributes code 0 functions
    (⟨name, code, constants, nested, params, upvalues, varargFlag code, stackSize code⟩,
      missingPrototypes code functions.length ++ warnings)

/-- Computes the attributes of prototypes in a function with the given code, from an
    index on. -/
def setNestedAttributes (code : List Instruction) (index : Nat) :
    List Prototype → List Prototype × List Warning
  | [] => ([], [])
  | f :: rest =>
    let (g, warnings) := setAttributes f
    let (more, moreWarnings) := setNestedAttributes code (index + 1) rest
    ({ g with numUpvalues := (upvalueCount? code index).getD g.numUpvalues } :: more,
      warnings ++ moreWarnings)

end

end LuaUnpack.Recover
