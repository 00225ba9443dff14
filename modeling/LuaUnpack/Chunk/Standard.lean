import LuaUnpack.Chunk.Prototype
import LuaUnpack.Chunk.Word

/-!
# Standard chunks

The binary form in which the standard machine, version 5.1, loads a program: a
header that fixes the sizes of numbers, and then the prototypes, each with its
code, its constants, the prototypes in it, and debug information. The writer leaves
the debug information empty; the reader skips it.
-/

namespace LuaUnpack.Chunk.Standard

/-- Signature, version, format, byte order, and the sizes of integers, lengths,
    instructions and numbers, which are floats. -/
def header : List UInt8 := [0x1B, 0x4C, 0x75, 0x61, 0x51, 0, 1, 4, 8, 4, 8, 0]

/-! ## Writing -/

/-- A 32-bit number. -/
def writeInt (n : Nat) : List UInt8 := toLittleEndian 4 n

/-- A text with its length, which counts the zero byte after it. -/
def writeString (s : String) : List UInt8 :=
  let bytes := Text.toBytes s
  toLittleEndian 8 (bytes.length + 1) ++ bytes ++ [0]

/-- A constant with its tag. -/
def writeConstant : Constant → List UInt8
  | .nil => [0]
  | .boolean value => [1, if value then 1 else 0]
  | .number bits => 3 :: toLittleEndian 8 bits.toNat
  | .string s => 4 :: writeString s

mutual

/-- A prototype. -/
def writePrototype : Prototype → List UInt8
  | ⟨_, code, constants, functions, params, upvalues, vararg, stack⟩ =>
    writeString "" ++ writeInt 0 ++ writeInt 0 ++ [upvalues, params, vararg, stack]
      ++ writeInt code.length ++ code.flatMap (fun i => toLittleEndian 4 i.word)
      ++ writeInt constants.length ++ constants.flatMap writeConstant
      ++ writeInt functions.length ++ writePrototypes functions
      ++ writeInt 0 ++ writeInt 0 ++ writeInt 0

/-- Prototypes one after the other. -/
def writePrototypes : List Prototype → List UInt8
  | [] => []
  | f :: rest => writePrototype f ++ writePrototypes rest

end

/-- The chunk of a program. -/
def write (f : Prototype) : List UInt8 := header ++ writePrototype f

/-- What is said about each instruction that is written without an operation. -/
def writeWarnings (f : Prototype) : List String :=
  (f.allInstructions.filter (!·.isResolved)).map fun i =>
    "Writing unresolved instruction " ++ i.text ++ " as invalid opcode"

/-! ## Reading -/

/-- Bytes as a list of numbers. -/
def showBytes (bytes : List UInt8) : String :=
  "[" ++ String.intercalate ", " (bytes.map fun b => toString b.toNat) ++ "]"

/-- Reads the header. -/
def readHeader : Reader Unit := do
  let bytes ← Reader.bytes header.length
  if bytes.take 4 != header.take 4 then
    Reader.fail (.invalidHeader "missing \\27Lua signature")
  let version := bytes.getD 4 0
  if version != 0x51 then
    let digits := Text.padLeft '0' 2 (Text.digits 16 version.toNat)
    Reader.fail (.invalidHeader ("unsupported version 0x" ++ digits))
  if bytes.drop 5 != header.drop 5 then
    Reader.fail (.invalidHeader ("unsupported platform layout " ++ showBytes (bytes.drop 5)))

/-- Reads a text; its last byte does not belong to it. -/
def readString : Reader String := do
  let length ← Reader.u64
  if length == 0 then
    return ""
  let bytes ← Reader.bytes length
  return Text.ofBytes (bytes.take (length - 1))

/-- Reads the instruction with an index. -/
def readInstruction (index : Nat) : Reader Instruction := do
  match Instruction.ofWord index (← Reader.u32) with
  | .ok i => return { i with pc := Int32.ofNat index }
  | .error e => Reader.fail e

/-- Reads a constant. -/
def readConstant : Reader Constant := do
  let tag ← Reader.u8
  if tag == 0 then return .nil
  else if tag == 1 then return .boolean ((← Reader.u8) != 0)
  else if tag == 3 then return .number (← Reader.bits)
  else if tag == 4 then return .string (← readString)
  else Reader.fail (.unknownConstantTag tag)

/-- Skips the debug information. -/
def skipDebug : Reader Unit := do
  let lines ← Reader.count "line info"
  let _ ← Reader.bytes (lines * 4)
  let locals ← Reader.count "local"
  let _ ← Reader.times locals fun _ => do
    let _ ← readString
    let _ ← Reader.i32
    Reader.i32
  let upvalues ← Reader.count "upvalue name"
  let _ ← Reader.times upvalues fun _ => readString

/-- Reads a prototype that is nested no deeper than `depth`. -/
def readPrototype : (depth : Nat) → Reader Prototype
  | 0 => do Reader.fail (.unexpectedEof (← Reader.offset) 1)
  | depth + 1 => do
    let _ ← readString
    let _ ← Reader.i32
    let _ ← Reader.i32
    let numUpvalues ← Reader.u8
    let numParams ← Reader.u8
    let isVararg ← Reader.u8
    let maxStackSize ← Reader.u8
    let instructions ← Reader.times (← Reader.count "instruction") readInstruction
    let constants ← Reader.times (← Reader.count "constant") fun _ => readConstant
    let functions ← Reader.times (← Reader.count "prototype") fun _ => readPrototype depth
    skipDebug
    return { instructions, constants, functions, numParams, numUpvalues, isVararg, maxStackSize }

/-- Reads a chunk. Every nested prototype takes bytes, so the length of the data
    bounds the depth. -/
def read (data : List UInt8) : Except Error Prototype :=
  Reader.runOn (do readHeader; return (← readPrototype (data.length + 1)).assignNames) data

end LuaUnpack.Chunk.Standard
