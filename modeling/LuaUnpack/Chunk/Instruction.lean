import LuaUnpack.Chunk.Opcode
import LuaUnpack.Text.Numeral

/-!
# Instructions

An instruction of a packed script has the number of a handler until its operation
is identified. Its `id` tells it apart from the other instructions of its function
and stays with it when instructions around it move or go away.
-/

namespace LuaUnpack.Chunk

/-- Which operands refer to constants, and whether the instruction is padding that
    is never run. -/
structure Flags where
  ka : Bool := false
  kb : Bool := false
  kc : Bool := false
  dead : Bool := false
deriving DecidableEq, Repr

/-- An instruction. -/
structure Instruction where
  id : Nat
  /-- The number of the handler in the packed script. -/
  opnum : Int32
  opcode : Opcode := .unknown
  a : Int32
  b : Int32
  c : Int32
  flags : Flags := {}
  /-- The place in the packed data, or in the chunk. -/
  pc : Int32 := 0
deriving DecidableEq, Repr

namespace Instruction

/-- The handler number of an instruction that has none. -/
def noOpnum : Int32 := -1

/-- An instruction with a known operation. -/
def ofOpcode (id : Nat) (opcode : Opcode) (a b c : Int32) : Instruction :=
  ⟨id, noOpnum, opcode, a, b, c, {}, 0⟩

/-- Whether the operation is known. -/
def isResolved (i : Instruction) : Bool := i.opcode != .unknown

/-- Whether the instruction is padding. -/
def isDead (i : Instruction) : Bool := i.flags.dead

/-- The instruction marked as padding. -/
def markDead (i : Instruction) : Instruction := { i with flags := { i.flags with dead := true } }

/-- A number as text. -/
def number (n : Int32) : String := toString n.toInt

/-- Four columns of a listing. -/
def columns (head a b c : String) : String :=
  Text.padLeft ' ' 12 head ++ "\t| " ++ Text.padLeft ' ' 4 a ++ " | " ++ Text.padLeft ' ' 4 b
    ++ " | " ++ Text.padLeft ' ' 4 c ++ " |"

/-- The line of an instruction in a listing. -/
def text (i : Instruction) : String :=
  if i.isResolved then columns i.opcode.name (number i.a) (number i.b) (number i.c)
  else if i.isDead then columns "DEAD" "-" "-" "-"
  else columns (number i.opnum) (number i.a) (number i.b) (number i.c)

end Instruction

end LuaUnpack.Chunk
