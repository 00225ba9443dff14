import LuaUnpack.Chunk.Prototype
import LuaUnpack.Chunk.Bytes
import LuaUnpack.Dict
import LuaUnpack.Transport

/-!
# Packed data

The container in which a packed script carries its program. A prototype is a
sequence of sections; which sections there are, in which order, and which tags mark
the kinds of constants differs from script to script, and is given by a format.
-/

namespace LuaUnpack.Chunk

/-- A section of a prototype. -/
inductive Section where
  | instructions
  | constants
  | functions
  | numParams
deriving DecidableEq, Repr

/-- The kind of a constant that has a tag. -/
inductive ConstantKind where
  | boolean
  | number
  | string
deriving DecidableEq, Repr

/-- The format of packed data: the sections of a prototype, the tags of constants
    and the key of string constants. -/
structure Format where
  sections : List Section := []
  constantTags : Dict UInt8 ConstantKind := []
  constantKey : Int64 := 0

namespace Packed

/-- What is subtracted from a biased operand. -/
def operandBias : Int32 := 65536

/-- The operands `b` and `c` of a record with a given shape. -/
def readOperands (shape : Nat) : Reader (Int32 × Int32) := do
  match shape with
  | 0 => do
    let b ← Reader.i16
    let c ← Reader.i16
    return (b.toInt32, c.toInt32)
  | 1 => return (← Reader.i32, 0)
  | 2 => return ((← Reader.i32) - operandBias, 0)
  | _ => do
    let b ← Reader.i32
    let c ← Reader.i16
    return (b - operandBias, c.toInt32)

/-- The record with an index: from the lowest bit, its first byte says whether it is
    to be left out, the shape of its operands, and which operands are constants. -/
def readRecord (index : Nat) : Reader (Option Instruction) := do
  let descriptor := (← Reader.u8).toNat
  if descriptor % 2 == 1 then
    return none
  let opnum ← Reader.i16
  let a ← Reader.i16
  let (b, c) ← readOperands (descriptor / 2 % 4)
  let flags : Flags :=
    { ka := descriptor / 8 % 2 == 1, kb := descriptor / 16 % 2 == 1, kc := descriptor / 32 % 2 == 1 }
  return some ⟨index, opnum.toInt32, .unknown, a.toInt32, b, c, flags, Int32.ofNat index⟩

/-- Reads the instructions; records that are left out still count. -/
def readInstructions : Reader (List Instruction) := do
  let records ← Reader.times (← Reader.count "instruction") readRecord
  return records.filterMap id

/-- Reads a constant; one with a foreign tag is `nil`. -/
def readConstant (format : Format) : Reader Constant := do
  match format.constantTags.get? (← Reader.u8) with
  | some .boolean => return .boolean ((← Reader.u8) != 0)
  | some .number => return .number (← Reader.bits)
  | some .string => do
    let bytes ← Reader.bytes (← Reader.count "string byte")
    return .string (Transport.decodeConstant format.constantKey bytes)
  | none => return .nil

/-- Reads one section after the other into a prototype; a section that comes again
    replaces what was read before. -/
def readSections (format : Format) (readNested : Reader Prototype) :
    List Section → Prototype → Reader Prototype
  | [], f => pure f
  | .instructions :: rest, f => do
    let instructions ← readInstructions
    readSections format readNested rest { f with instructions }
  | .constants :: rest, f => do
    let constants ← Reader.times (← Reader.count "constant") fun _ => readConstant format
    readSections format readNested rest { f with constants }
  | .functions :: rest, f => do
    let functions ← Reader.times (← Reader.count "prototype") fun _ => readNested
    readSections format readNested rest { f with functions }
  | .numParams :: rest, f => do
    let numParams ← Reader.u8
    readSections format readNested rest { f with numParams }

/-- Reads a prototype that is nested no deeper than `depth`. -/
def readPrototype (format : Format) : (depth : Nat) → Reader Prototype
  | 0 => do Reader.fail (.unexpectedEof (← Reader.offset) 1)
  | depth + 1 => readSections format (readPrototype format depth) format.sections {}

/-- Reads packed data; bytes after the program do not matter. Every nested
    prototype takes bytes, so the length of the data bounds the depth. -/
def read (format : Format) (data : List UInt8) : Except Error Prototype :=
  if format.sections.isEmpty then .error .emptyFormat
  else
    Reader.runOn (do return (← readPrototype format (data.length + 1)).assignNames) data

end Packed

end LuaUnpack.Chunk
