import LuaUnpack.Chunk.Prototype
import LuaUnpack.Dict
import LuaUnpack.Lua.Token
import LuaUnpack.Width

/-!
# What registers hold

Pseudocode writes values where they are used, not where they are computed. To this
end a frame keeps the text of the value that each register holds. A register that
holds no known text is written by its number.
-/

namespace LuaUnpack.Pseudocode

open LuaUnpack.Chunk

/-! ## Registers -/

/-- The number of a register. An operand can name a register that no frame has. -/
abbrev Register := Int

/-- The highest register of a frame. -/
def lastRegister : Register := 255

/-- The register a number of places after another one, within 32-bit integers. -/
def Register.shift (r : Register) (places : Int) : Register :=
  max (minSigned 32) (min (maxSigned 32) (r + places))

/-- The registers of a frame between two, both included. -/
def span (first last : Register) : List Register :=
  let low := max first 0
  (List.range (min last lastRegister - low + 1).toNat).map fun (k : Nat) => low + k

/-- A register by its number. -/
def registerName (r : Register) : String := s!"R{r}"

/-! ## Frames -/

/-- The text of a value; that of a method, as in `object:name`, already has the object
    it is called on. -/
structure Held where
  text : String
  isMethod : Bool := false
deriving DecidableEq, Repr

/-- What registers hold, and the number of the next invented variable. -/
structure Frame where
  registers : Dict Register Held := []
  fresh : Nat := 0
deriving DecidableEq, Repr

namespace Frame

/-- The text that a register holds, if it is known. -/
def get? (frame : Frame) (r : Register) : Option String :=
  (Dict.get? r frame.registers).map (·.text)

/-- Whether a register holds a method. -/
def isMethod (frame : Frame) (r : Register) : Bool :=
  (Dict.get? r frame.registers).any (·.isMethod)

/-- A register as it is written where it is used. -/
def read (frame : Frame) (r : Register) : String := (frame.get? r).getD (registerName r)

/-- The registers between two as they are written where they are used. -/
def readSpan (frame : Frame) (first last : Register) : List String :=
  (span first last).map frame.read

/-- Lets a register hold a text. -/
def hold (frame : Frame) (r : Register) (text : String) : Frame :=
  { frame with registers := Dict.put r ⟨text, false⟩ frame.registers }

/-- Lets a register hold a method. -/
def holdMethod (frame : Frame) (r : Register) (text : String) : Frame :=
  { frame with registers := Dict.put r ⟨text, true⟩ frame.registers }

/-- Forgets what a register holds. -/
def clear (frame : Frame) (r : Register) : Frame :=
  { frame with registers := Dict.erase r frame.registers }

/-- Registers with new variables that start with the given letters. -/
def invented (frame : Frame) (letters : String) (registers : List Register) :
    List (Register × String) :=
  registers.zipIdx.map fun (r, k) => (r, letters ++ toString (frame.fresh + k))

/-- Lets registers hold new variables. -/
def invent (frame : Frame) (letters : String) (registers : List Register) : Frame :=
  let held := (frame.invented letters registers).foldl (fun f (r, name) => f.hold r name) frame
  { held with fresh := frame.fresh + registers.length }

end Frame

/-! ## Operands -/

/-- The operands from here on are constants where both registers and constants are
    allowed. -/
def firstConstant : Int := 256

/-- A constant by its index. -/
def constantText (f : Prototype) (index : Int32) : String :=
  match f.constant? index with
  | some constant => constant.text
  | none => s!"K{index.toInt}"

/-- An operand that is a register or a constant. -/
def operandText (f : Prototype) (frame : Frame) (operand : Int32) : String :=
  if firstConstant ≤ operand.toInt then constantText f (operand - 256)
  else frame.read operand.toInt

/-- The constant of an operand, if it can stand after a dot. -/
def fieldName? (f : Prototype) (operand : Int32) : Option String :=
  if firstConstant ≤ operand.toInt then
    ((f.constant? (operand - 256)).bind Constant.asString?).filter Lua.isIdentifier
  else
    none

/-- How a key is written after the table it belongs to. -/
def keyText (f : Prototype) (frame : Frame) (operand : Int32) : String :=
  match fieldName? f operand with
  | some name => "." ++ name
  | none => "[" ++ operandText f frame operand ++ "]"

/-- The name of a global variable. -/
def globalName (f : Prototype) (index : Int32) : String :=
  match f.constant? index with
  | some (.string name) => name
  | _ => "_G[" ++ constantText f index ++ "]"

/-- The name of the function that a closure is made of. -/
def closureName (f : Prototype) (index : Int32) : String :=
  if index.toInt < 0 then s!"closure{index.toInt}"
  else
    match f.functions[index.toInt.toNat]? with
    | some child => child.name
    | none => s!"closure{index.toInt}"

end LuaUnpack.Pseudocode
