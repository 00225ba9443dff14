/-!
# Bytes and text

Text is stored as UTF-8. Bytes that are not UTF-8 are read with a replacement:
each maximal part that could still have become a character, and each byte that
could not, is replaced by one U+FFFD.
-/

namespace LuaUnpack.Text

/-- The character that stands for bytes that are no text. -/
def replacement : Char := Char.ofNat 0xFFFD

/-- The shape of a multi-byte character by its first byte: how many bytes
    follow, and the closed range in which the second one has to lie. -/
def leadShape? (b : UInt8) : Option (Nat × UInt8 × UInt8) :=
  if 0xC2 ≤ b && b ≤ 0xDF then some (1, 0x80, 0xBF)
  else if b == 0xE0 then some (2, 0xA0, 0xBF)
  else if b == 0xED then some (2, 0x80, 0x9F)
  else if 0xE1 ≤ b && b ≤ 0xEF then some (2, 0x80, 0xBF)
  else if b == 0xF0 then some (3, 0x90, 0xBF)
  else if 0xF1 ≤ b && b ≤ 0xF3 then some (3, 0x80, 0xBF)
  else if b == 0xF4 then some (3, 0x80, 0x8F)
  else none

/-- Whether a byte continues a character. -/
def isContinuation (b : UInt8) : Bool := 0x80 ≤ b && b ≤ 0xBF

/-- The payload bits of a first byte that is followed by `n` bytes. -/
def leadBits (n : Nat) (b : UInt8) : Nat :=
  match n with
  | 1 => b.toNat % 32
  | 2 => b.toNat % 16
  | _ => b.toNat % 8

/-- Reads the continuation bytes of a character whose bits so far are `acc`;
    the second result counts the bytes that belong together. -/
def continuationBits (acc : Nat) : Nat → List UInt8 → Option Nat × Nat
  | 0, _ => (some acc, 0)
  | _ + 1, [] => (none, 0)
  | n + 1, b :: rest =>
    if isContinuation b then
      let (bits, used) := continuationBits (acc * 64 + b.toNat % 64) n rest
      (bits, used + 1)
    else
      (none, 0)

/-- The first character of `b :: rest`, and how many bytes of `rest` it takes. -/
def leadChar (b : UInt8) (rest : List UInt8) : Char × Nat :=
  if b < 0x80 then (Char.ofNat b.toNat, 0)
  else
    match leadShape? b, rest with
    | some (n, low, high), second :: _ =>
      if low ≤ second && second ≤ high then
        match continuationBits (leadBits n b) n rest with
        | (some bits, used) => (Char.ofNat bits, used)
        | (none, used) => (replacement, used)
      else
        (replacement, 0)
    | _, _ => (replacement, 0)

/-- The characters of a byte list, with replacements for what is no text. -/
def decodeChars : List UInt8 → List Char
  | [] => []
  | b :: rest =>
    let lead := leadChar b rest
    lead.1 :: decodeChars (rest.drop lead.2)
termination_by bytes => bytes.length
decreasing_by simp only [List.length_drop, List.length_cons]; omega

/-- The text of a byte list, with replacements for what is no text. -/
def ofBytes (bytes : List UInt8) : String := String.ofList (decodeChars bytes)

/-- The bytes of a text. -/
def toBytes (s : String) : List UInt8 := s.toUTF8.toList

/-- The text of a byte list that is valid UTF-8. -/
def ofValidBytes? (bytes : List UInt8) : Option String :=
  let text := ofBytes bytes
  if toBytes text == bytes then some text else none

end LuaUnpack.Text
