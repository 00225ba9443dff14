import LuaUnpack.Dict
import LuaUnpack.Text.Bytes
import LuaUnpack.Text.Cut
import LuaUnpack.Text.Numeral

/-!
# Encoded data inside scripts

Data travels in string literals in two ways. A keyed string starts with sixteen
characters, one for each half of a byte, and shifts the bytes after them by a key
that grows with every byte. An escaped string writes each byte as a decimal number
after a backslash. Decoded data can be a table of constants: records that each
name one or two texts by a key of eight bytes.
-/

namespace LuaUnpack.Transport

/-- Why encoded data cannot be read. -/
inductive Error where
  | missingAlphabet (length : Nat)
  | invalidEscape (text : String)
  | truncated (offset : Nat)
deriving DecidableEq, Repr

/-- The message for an error. -/
def Error.message : Error → String
  | missingAlphabet length =>
    s!"Encoded data too short: expected a 16 character alphabet, got {length} characters"
  | invalidEscape text => s!"Invalid escaped byte: {text}"
  | truncated offset => s!"Constant table truncated at offset {offset}"

/-! ## Keyed strings -/

/-- The number of characters of an alphabet. -/
def alphabetLength : Nat := 16

/-- The place of a character in an alphabet, the last one if it occurs more than
    once. -/
def lastIndex? (c : Char) : List Char → Option Nat
  | [] => none
  | d :: rest =>
    match lastIndex? c rest with
    | some i => some (i + 1)
    | none => if d == c then some 0 else none

/-- The half byte that a character stands for; a foreign character stands for
    zero. -/
def nibble (alphabet : List Char) (c : Char) : Nat := (lastIndex? c alphabet).getD 0

/-- An integer cut to its low eight bits. -/
def lowByte (n : Int) : UInt8 := UInt8.ofNat (n % 256).toNat

/-- The bytes of the characters after the alphabet. The running key starts with
    the key and grows by it, wrapping around, with every byte. A last character
    without a partner counts as a first half. -/
def decodeBody (alphabet : List Char) (key : Int64) : Int64 → List Char → List UInt8
  | _, [] => []
  | running, [high] => [lowByte ((nibble alphabet high * 16 : Nat) + running.toInt)]
  | running, high :: low :: rest =>
    lowByte ((nibble alphabet high * 16 + nibble alphabet low : Nat) + running.toInt)
      :: decodeBody alphabet key (running + key) rest

/-- The bytes of a keyed string. -/
def decode (data : String) (key : Int64) : Except Error (List UInt8) :=
  let chars := data.toList
  if chars.length < alphabetLength then
    .error (.missingAlphabet chars.length)
  else
    .ok (decodeBody (chars.take alphabetLength) key key (chars.drop alphabetLength))

/-- The character for a half byte; an alphabet that is too short has a question
    mark there. -/
def symbolAt (alphabet : List Char) (n : Nat) : Char := alphabet[n]?.getD '?'

/-- The characters for bytes. -/
def encodeBody (alphabet : List Char) (key : Int64) : Int64 → List UInt8 → List Char
  | _, [] => []
  | running, b :: rest =>
    let value := (lowByte (b.toNat - running.toInt)).toNat
    symbolAt alphabet (value / 16) :: symbolAt alphabet (value % 16)
      :: encodeBody alphabet key (running + key) rest

/-- The keyed string of bytes, with the first sixteen characters of a text as
    alphabet. -/
def encode (bytes : List UInt8) (key : Int64) (alphabet : String) : String :=
  let symbols := alphabet.toList.take alphabetLength
  String.ofList (symbols ++ encodeBody symbols key key bytes)

/-! ## Escaped strings -/

/-- The byte that a part of an escaped string stands for. -/
def readEscape (part : List Char) : Except Error UInt8 :=
  match Text.readNat? 10 255 part with
  | some n => .ok (UInt8.ofNat n)
  | none => .error (.invalidEscape (String.ofList part))

/-- The bytes of an escaped string; what stands before the first backslash does not
    count. -/
def decodeEscape (data : String) : Except Error (List UInt8) :=
  ((Text.cutAt '\\' data.toList).drop 1).mapM readEscape

/-! ## Tables of constants -/

/-- The texts of a constant: one, or the two parts of a path. -/
structure Entry where
  first : String
  second : Option String := none
deriving DecidableEq, Repr

/-- The texts of an entry. -/
def Entry.texts (entry : Entry) : List String := entry.first :: entry.second.toList

/-- Constants by key, in the order in which the keys first occur. -/
abbrev ConstantTable := Dict String Entry

/-- The control byte that ends a table. -/
def endOfTable : UInt8 := 5

/-- A text with its length in the byte before it, and the number of bytes it takes.
    The error is the number of bytes that could be read. -/
def readSized : List UInt8 → Except Nat (String × Nat)
  | [] => .error 0
  | size :: rest =>
    let bytes := rest.take size.toNat
    if bytes.length < size.toNat then .error 1
    else .ok (Text.ofBytes bytes, size.toNat + 1)

/-- The number of bytes of a key. -/
def keyLength : Nat := 8

/-- Whether a record with a control byte has two texts. -/
def hasSecond (control : UInt8) : Bool := control == 0

/-- Whether a record with a control byte is an entry of the table. -/
def isEntry (control : UInt8) : Bool :=
  control == 0 || control == 1 || control == 2 || control == 4 || control == 6

/-- The entry and key of a record after its control byte, and the number of bytes
    it takes. The error is the number of bytes that could be read. -/
def readRecord (control : UInt8) (bytes : List UInt8) : Except Nat (String × Entry × Nat) := do
  let (first, used) ← readSized bytes
  let (second, used) ←
    if hasSecond control then
      match readSized (bytes.drop used) with
      | .ok (text, more) => pure (some text, used + more)
      | .error more => throw (used + more)
    else
      pure (none, used)
  let key := (bytes.drop used).take keyLength
  if key.length < keyLength then
    throw used
  return (Text.ofBytes key, ⟨first, second⟩, used + keyLength)

/-- Reads records up to the one that ends the table and puts their entries into a
    table. -/
def readRecords (table : ConstantTable) (offset : Nat) :
    List UInt8 → Except Error ConstantTable
  | [] => .error (.truncated offset)
  | control :: rest =>
    if control == endOfTable then .ok table
    else
      match readRecord control rest with
      | .error used => .error (.truncated (offset + 1 + used))
      | .ok (key, entry, used) =>
        readRecords (if isEntry control then table.put key entry else table)
          (offset + 1 + used) (rest.drop used)
termination_by bytes => bytes.length
decreasing_by simp only [List.length_drop, List.length_cons]; omega

/-- Reads a table of constants. -/
def decodeConstants (data : List UInt8) : Except Error ConstantTable := readRecords [] 0 data

/-! ## Single constants -/

/-- The text of a string constant. If its first byte is above 127, that byte is a
    mark, and those after it are shifted by the key. -/
def decodeConstant (key : Int64) (bytes : List UInt8) : String :=
  match bytes with
  | mark :: b :: rest =>
    if 0x7F < mark then
      Text.ofBytes ((b :: rest).map fun b => lowByte (b.toNat + key.toInt))
    else
      Text.ofBytes bytes
  | _ => Text.ofBytes bytes

end LuaUnpack.Transport
