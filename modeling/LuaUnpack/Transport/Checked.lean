import LuaUnpack.Transport

/-!
# Keyed data in checked arithmetic

The running key of a keyed string wraps around, and only its low byte counts. The sums next to it
are calculated with all their bits: where arithmetic is checked, a sum that is not a word of 64
bits stops the computation. Unless one does, the results are those of `decode`, `encode` and
`decodeConstant`.
-/

namespace LuaUnpack.Transport

/-- The sum of two words, if it is a word. -/
def addWords? (x y : Int64) : Option Int64 :=
  if x.toBitVec.saddOverflow y.toBitVec then none else some (x + y)

/-- The difference of two words, if it is a word. -/
def subWords? (x y : Int64) : Option Int64 :=
  if x.toBitVec.ssubOverflow y.toBitVec then none else some (x - y)

/-- The value of two half bytes. -/
def joinHalves? (high low : Nat) : Option Int64 :=
  addWords? (Int64.ofNat (high * 16)) (Int64.ofNat low)

/-- A byte shifted forth by the running key. -/
def shiftForth? (value running : Int64) : Option UInt8 :=
  (addWords? value running).map fun sum => lowByte sum.toInt

/-- A byte shifted back by the running key. -/
def shiftBack? (value running : Int64) : Option UInt8 :=
  (subWords? value running).map fun difference => lowByte difference.toInt

/-- The bytes of the characters after the alphabet. -/
def decodeBody? (alphabet : List Char) (key : Int64) : Int64 → List Char → Option (List UInt8)
  | _, [] => some []
  | running, [high] => do
    let value ← joinHalves? (nibble alphabet high) 0
    (shiftForth? value running).map ([·])
  | running, high :: low :: rest => do
    let value ← joinHalves? (nibble alphabet high) (nibble alphabet low)
    let b ← shiftForth? value running
    (decodeBody? alphabet key (running + key) rest).map (b :: ·)

/-- The bytes of a keyed string. -/
def decode? (data : String) (key : Int64) : Option (Except Error (List UInt8)) :=
  let chars := data.toList
  if chars.length < alphabetLength then
    some (.error (.missingAlphabet chars.length))
  else
    (decodeBody? (chars.take alphabetLength) key key (chars.drop alphabetLength)).map .ok

/-- The characters for bytes. -/
def encodeBody? (alphabet : List Char) (key : Int64) : Int64 → List UInt8 → Option (List Char)
  | _, [] => some []
  | running, b :: rest => do
    let shifted ← shiftBack? (Int64.ofNat b.toNat) running
    (encodeBody? alphabet key (running + key) rest).map fun chars =>
      symbolAt alphabet (shifted.toNat / 16) :: symbolAt alphabet (shifted.toNat % 16) :: chars

/-- The keyed string of bytes. -/
def encode? (bytes : List UInt8) (key : Int64) (alphabet : String) : Option String :=
  let symbols := alphabet.toList.take alphabetLength
  (encodeBody? symbols key key bytes).map fun chars => String.ofList (symbols ++ chars)

/-- Bytes that are all shifted by the same key. -/
def shiftAll? (key : Int64) : List UInt8 → Option (List UInt8)
  | [] => some []
  | b :: rest => do
    let shifted ← shiftForth? (Int64.ofNat b.toNat) key
    (shiftAll? key rest).map (shifted :: ·)

/-- The text of a string constant. -/
def decodeConstant? (key : Int64) (bytes : List UInt8) : Option String :=
  match bytes with
  | mark :: b :: rest =>
    if 0x7F < mark then (shiftAll? key (b :: rest)).map Text.ofBytes
    else some (Text.ofBytes bytes)
  | _ => some (Text.ofBytes bytes)

end LuaUnpack.Transport
