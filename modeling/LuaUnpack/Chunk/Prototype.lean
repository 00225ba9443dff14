import LuaUnpack.Chunk.Instruction
import LuaUnpack.Lua.Printer

/-!
# Prototypes

The function prototypes of a program: code, constants and the prototypes nested in
it.
-/

namespace LuaUnpack.Chunk

/-- A constant of a prototype. A number is kept as its bits, because a program can
    hold several values that are no number and chunks keep them apart. -/
inductive Constant where
  | nil
  | boolean (value : Bool)
  | number (bits : UInt64)
  | string (value : String)
deriving DecidableEq, Repr

namespace Constant

/-- The text of a string constant. -/
def asString? : Constant → Option String
  | string s => some s
  | _ => none

/-- The number of a number constant. -/
def asNumber? : Constant → Option Float
  | number bits => some (Float.ofBits bits)
  | _ => none

/-- The name of the type of a constant. -/
def typeName : Constant → String
  | nil => "nil"
  | boolean _ => "boolean"
  | number _ => "number"
  | string _ => "string"

/-- A constant as it is written in a script. -/
def text : Constant → String
  | nil => "nil"
  | boolean value => if value then "true" else "false"
  | number bits => Lua.numberText (Float.ofBits bits)
  | string s => "\"" ++ Lua.escapeBytes (Text.toBytes s) ++ "\""

end Constant

/-- A function prototype with everything nested in it. -/
structure Prototype where
  name : String := ""
  instructions : List Instruction := []
  constants : List Constant := []
  functions : List Prototype := []
  numParams : UInt8 := 0
  numUpvalues : UInt8 := 0
  isVararg : UInt8 := 0
  maxStackSize : UInt8 := 0

namespace Prototype

/-- The constant at an index. -/
def constant? (f : Prototype) (index : Int32) : Option Constant :=
  if index.toInt < 0 then none else f.constants[index.toInt.toNat]?

/-- The name of the prototype with a number. -/
def numberedName (k : Nat) : String := "func_" ++ Text.padLeft '0' 8 (Text.digits 16 k)

mutual

/-- Names a prototype and those nested in it, from a number on; the second result
    is the next free number. -/
def nameFrom (k : Nat) : Prototype → Prototype × Nat
  | ⟨_, code, constants, functions, params, upvalues, vararg, stack⟩ =>
    let (functions, next) := nameAllFrom (k + 1) functions
    (⟨numberedName k, code, constants, functions, params, upvalues, vararg, stack⟩, next)

/-- Names prototypes from a number on. -/
def nameAllFrom (k : Nat) : List Prototype → List Prototype × Nat
  | [] => ([], k)
  | f :: rest =>
    let (f, next) := nameFrom k f
    let (rest, last) := nameAllFrom next rest
    (f :: rest, last)

end

/-- Names every prototype by its number, a prototype before those nested in it. -/
def assignNames (f : Prototype) : Prototype := (nameFrom 0 f).1

mutual

/-- A prototype and all those nested in it, each before its own. -/
def all : Prototype → List Prototype
  | ⟨name, code, constants, functions, params, upvalues, vararg, stack⟩ =>
    ⟨name, code, constants, functions, params, upvalues, vararg, stack⟩ :: allOf functions

/-- Prototypes and all those nested in them. -/
def allOf : List Prototype → List Prototype
  | [] => []
  | f :: rest => all f ++ allOf rest

end

section

variable {m : Type → Type} [Monad m]
  (change : List Instruction → List Constant → m (List Instruction × List Constant))

mutual

/-- Changes the code and the constants of a prototype and then of those nested in
    it. -/
def mapBody : Prototype → m Prototype
  | ⟨name, code, constants, functions, params, upvalues, vararg, stack⟩ => do
    let (code, constants) ← change code constants
    let functions ← mapBodies functions
    return ⟨name, code, constants, functions, params, upvalues, vararg, stack⟩

/-- Changes the code and the constants of prototypes. -/
def mapBodies : List Prototype → m (List Prototype)
  | [] => pure []
  | f :: rest => do
    let f ← mapBody f
    return f :: (← mapBodies rest)

end

end

/-- Every instruction of a prototype and of those nested in it. -/
def allInstructions (f : Prototype) : List Instruction := f.all.flatMap (·.instructions)

/-- The number of prototypes. -/
def functionCount (f : Prototype) : Nat := f.all.length

/-- The number of instructions. -/
def instructionCount (f : Prototype) : Nat := f.allInstructions.length

/-- The number of instructions whose operation is not known. -/
def unresolvedCount (f : Prototype) : Nat := f.allInstructions.countP (!·.isResolved)

mutual

/-- The lines of a listing of a prototype. -/
def listingAt (depth : Nat) : Prototype → String
  | ⟨name, code, constants, functions, params, upvalues, vararg, stack⟩ =>
    let pad := Text.repeated depth "  "
    let head := s!"{pad}{name} ({params} params, {upvalues} upvalues, vararg {vararg}, stack {stack})\n"
    let codeLines := code.zipIdx.map fun (i, k) =>
      pad ++ "  [" ++ Text.padLeft ' ' 4 (toString k) ++ "] " ++ i.text ++ "\n"
    let constantLines :=
      if constants.isEmpty then []
      else
        s!"{pad}  constants ({constants.length})\n" :: constants.zipIdx.map fun (c, k) =>
          pad ++ "    " ++ Text.padLeft ' ' 4 (toString k) ++ ": " ++ c.text ++ "\n"
    head ++ String.join codeLines ++ String.join constantLines ++ listingsAt (depth + 1) functions

/-- The lines of a listing of prototypes. -/
def listingsAt (depth : Nat) : List Prototype → String
  | [] => ""
  | f :: rest => listingAt depth f ++ listingsAt depth rest

end

/-- A listing of a prototype and those nested in it. -/
def listing (f : Prototype) : String := listingAt 0 f

end Prototype

end LuaUnpack.Chunk
