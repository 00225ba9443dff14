/-!
# Reading and writing bytes

Numbers are stored with their lowest byte first. A reader takes bytes from the
front of a list and keeps the offset; an attempt to take more than there are fails
and takes nothing.
-/

namespace LuaUnpack.Chunk

/-- What went wrong with binary data. -/
inductive Error where
  | unexpectedEof (offset needed : Nat)
  | invalidHeader (what : String)
  | negativeCount (what : String) (count : Int32) (offset : Nat)
  | unknownOpcode (code : Nat)
  | unknownConstantTag (tag : UInt8)
  | jumpOutOfRange (pc : Nat) (target : Int)
  | constantOutOfRange (index : Int) (length : Nat)
  | emptyFormat
deriving DecidableEq, Repr

/-- The message for an error. -/
def Error.message : Error → String
  | unexpectedEof offset needed =>
    s!"Unexpected end of data at offset {offset}: needed {needed} more bytes"
  | invalidHeader what => s!"Invalid chunk header: {what}"
  | negativeCount what count offset =>
    s!"Negative {what} count {count.toInt} at offset {offset}"
  | unknownOpcode code => s!"Unknown opcode {code} in standard chunk"
  | unknownConstantTag tag => s!"Unknown constant tag {tag} in standard chunk"
  | jumpOutOfRange pc target =>
    s!"Jump at {pc} targets instruction {target} outside the function"
  | constantOutOfRange index length =>
    s!"Constant index {index} out of range ({length} constants)"
  | emptyFormat => "Empty layout recipe"

/-! ## Numbers as bytes -/

/-- The number that bytes stand for, the lowest first. -/
def ofLittleEndian : List UInt8 → Nat
  | [] => 0
  | b :: rest => b.toNat + 256 * ofLittleEndian rest

/-- The bytes of a number, the lowest first. -/
def toLittleEndian : (width : Nat) → Nat → List UInt8
  | 0, _ => []
  | width + 1, n => UInt8.ofNat n :: toLittleEndian width (n / 256)

/-! ## Readers -/

/-- The bytes that are left, and the offset of the first of them. -/
structure Cursor where
  rest : List UInt8
  offset : Nat := 0

/-- A reader of bytes; it leaves the cursor where it failed. -/
abbrev Reader := ExceptT Error (StateM Cursor)

namespace Reader

/-- Fails with an error. -/
def fail {α : Type} (error : Error) : Reader α := throw error

/-- The offset of the next byte. -/
def offset : Reader Nat := do return (← get).offset

/-- Takes a number of bytes. -/
def bytes (n : Nat) : Reader (List UInt8) := do
  let cursor ← get
  let taken := cursor.rest.take n
  if taken.length < n then
    fail (.unexpectedEof cursor.offset (n - taken.length))
  else
    set (⟨cursor.rest.drop n, cursor.offset + n⟩ : Cursor)
    return taken

/-- Takes a number that is `width` bytes wide. -/
def unsigned (width : Nat) : Reader Nat := do return ofLittleEndian (← bytes width)

/-- Takes a byte. -/
def u8 : Reader UInt8 := do return UInt8.ofNat (← unsigned 1)

/-- Takes a signed 16-bit number. -/
def i16 : Reader Int16 := do return Int16.ofNat (← unsigned 2)

/-- Takes a signed 32-bit number. -/
def i32 : Reader Int32 := do return Int32.ofNat (← unsigned 4)

/-- Takes an unsigned 32-bit number. -/
def u32 : Reader Nat := unsigned 4

/-- Takes an unsigned 64-bit number. -/
def u64 : Reader Nat := unsigned 8

/-- Takes the bits of a float. -/
def bits : Reader UInt64 := do return UInt64.ofNat (← unsigned 8)

/-- Takes a float. -/
def f64 : Reader Float := do return Float.ofBits (← bits)

/-- Takes a number of elements, which may not be negative. -/
def count (what : String) : Reader Nat := do
  let start ← offset
  let n ← i32
  if n.toInt < 0 then
    fail (.negativeCount what n start)
  else
    return n.toInt.toNat

/-- Reads items, given their number and a reader for the one with an index. -/
def timesFrom {α : Type} (reader : Nat → Reader α) (index : Nat) : Nat → Reader (List α)
  | 0 => pure []
  | n + 1 => do
    let item ← reader index
    return item :: (← timesFrom reader (index + 1) n)

/-- Reads a number of items. -/
def times {α : Type} (n : Nat) (reader : Nat → Reader α) : Reader (List α) :=
  timesFrom reader 0 n

/-- Reads from the start of a byte list. -/
def runOn {α : Type} (reader : Reader α) (data : List UInt8) : Except Error α :=
  (reader.run ⟨data, 0⟩).1

end Reader

end LuaUnpack.Chunk
