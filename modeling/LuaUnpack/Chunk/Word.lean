import LuaUnpack.Chunk.Bytes
import LuaUnpack.Chunk.Instruction
import LuaUnpack.Width

/-!
# Instruction words

An instruction is stored in 32 bits: from the lowest, six for the code of its
operation, eight for `a`, nine for `c` and nine for `b`; a wide `b` takes the place
of both. A signed wide `b` is stored with a bias. An operand that does not fit is
cut to the low bits of its field.
-/

namespace LuaUnpack.Chunk

/-- What is added to a signed operand to store it. -/
def signedBias : Int := 131071

/-- The low bits of a number. -/
def lowBits (bits : Nat) (n : Int) : Nat := (n % (twoPow bits : Int)).toNat

/-- The word of an instruction. -/
def Instruction.word (i : Instruction) : Nat :=
  let a := lowBits 8 i.a.toInt * twoPow 6
  let b := lowBits 9 i.b.toInt * twoPow 23
  let c := lowBits 9 i.c.toInt * twoPow 14
  let bx := lowBits 18 i.b.toInt * twoPow 14
  let sbx := lowBits 18 (i.b.toInt + signedBias) * twoPow 14
  i.opcode.code +
    match i.opcode.layout with
    | .a => a
    | .ab => a + b
    | .ac => a + c
    | .abc => a + b + c
    | .abx => a + bx
    | .asbx => a + sbx
    | .sbx => sbx

/-- The instruction of a word, with an identity. -/
def Instruction.ofWord (id word : Nat) : Except Error Instruction :=
  let code := word % twoPow 6
  match Opcode.ofCode? code with
  | none => .error (.unknownOpcode code)
  | some opcode =>
    let a := Int32.ofNat (word / twoPow 6 % twoPow 8)
    let b := Int32.ofNat (word / twoPow 23 % twoPow 9)
    let c := Int32.ofNat (word / twoPow 14 % twoPow 9)
    let bx := Int32.ofNat (word / twoPow 14 % twoPow 18)
    let sbx := Int32.ofInt ((word / twoPow 14 % twoPow 18 : Nat) - signedBias)
    .ok <|
      match opcode.layout with
      | .a => .ofOpcode id opcode a 0 0
      | .ab => .ofOpcode id opcode a b 0
      | .ac => .ofOpcode id opcode a 0 c
      | .abc => .ofOpcode id opcode a b c
      | .abx => .ofOpcode id opcode a bx 0
      | .asbx => .ofOpcode id opcode a sbx 0
      | .sbx => .ofOpcode id opcode 0 sbx 0

end LuaUnpack.Chunk
