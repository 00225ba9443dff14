import LuaUnpack.Text.Bytes
import LuaUnpack.Text.Numeral

/-!
# String literals

A string literal is kept as it stands between its delimiters, so that encoded
data is not touched by reading and printing a script. The bytes that it denotes
are computed on demand.
-/

namespace LuaUnpack.Lua

/-- What encloses a string literal; a long bracket has a number of equal
    signs. -/
inductive Delimiter where
  | double
  | single
  | long (level : Nat)
deriving DecidableEq, Repr

/-- A string literal as written: the text between the delimiters, with escapes
    unresolved. -/
structure Literal where
  raw : String
  delimiter : Delimiter := .double
deriving DecidableEq, Repr

namespace Literal

/-- The value of a hexadecimal digit, if the byte is one. -/
def hexDigit? (b : UInt8) : Option Nat := Text.digitValue? 16 (Char.ofNat b.toNat)

/-- The value of a decimal digit, if the byte is one. -/
def decimalDigit? (b : UInt8) : Option Nat := Text.digitValue? 10 (Char.ofNat b.toNat)

/-- Reads at most `limit` digits after the value `acc`, and says how many were
    read. -/
def escapedNumber (digit? : UInt8 → Option Nat) (base : Nat) :
    (limit acc : Nat) → List UInt8 → Nat × Nat
  | 0, acc, _ => (acc, 0)
  | _ + 1, acc, [] => (acc, 0)
  | limit + 1, acc, b :: rest =>
    match digit? b with
    | none => (acc, 0)
    | some d =>
      let (value, used) := escapedNumber digit? base limit (acc * base + d) rest
      (value, used + 1)

/-- The byte that the escape `\c` denotes, and how many bytes after `c` belong to
    it. A number above 255 is cut to its low eight bits. -/
def escape (c : UInt8) (rest : List UInt8) : UInt8 × Nat :=
  if c == 'n'.toUInt8 then (0x0A, 0)
  else if c == 'r'.toUInt8 then (0x0D, 0)
  else if c == 't'.toUInt8 then (0x09, 0)
  else if c == 'a'.toUInt8 then (0x07, 0)
  else if c == 'b'.toUInt8 then (0x08, 0)
  else if c == 'f'.toUInt8 then (0x0C, 0)
  else if c == 'v'.toUInt8 then (0x0B, 0)
  else if c == 'x'.toUInt8 then
    let (value, used) := escapedNumber hexDigit? 16 2 0 rest
    (UInt8.ofNat value, used)
  else
    match decimalDigit? c with
    | some d =>
      let (value, used) := escapedNumber decimalDigit? 10 2 d rest
      (UInt8.ofNat value, used)
    | none => (c, 0)

/-- Resolves the escapes of a short string; a backslash at the very end stands
    for itself. -/
def unescape : List UInt8 → List UInt8
  | [] => []
  | [b] => [b]
  | b :: c :: rest =>
    if b == '\\'.toUInt8 then
      let (value, used) := escape c rest
      value :: unescape (rest.drop used)
    else
      b :: unescape (c :: rest)
termination_by bytes => bytes.length
decreasing_by all_goals simp only [List.length_drop, List.length_cons]; omega

/-- The bytes that a literal denotes. -/
def bytes (literal : Literal) : List UInt8 :=
  match literal.delimiter with
  | .long _ => Text.toBytes literal.raw
  | _ => unescape (Text.toBytes literal.raw)

/-- The text that a literal denotes, with replacements for bytes that are no
    text. -/
def value (literal : Literal) : String := Text.ofBytes literal.bytes

end Literal

/-- The escape of one byte in a short string: printable characters stand for
    themselves, the rest is written by name or as three digits. -/
def escapeByte (b : UInt8) : String :=
  if b == '\x22'.toUInt8 then "\\\""
  else if b == '\\'.toUInt8 then "\\\\"
  else if b == 0x0A then "\\n"
  else if b == 0x0D then "\\r"
  else if b == 0x09 then "\\t"
  else if 0x20 ≤ b && b ≤ 0x7E then String.singleton (Char.ofNat b.toNat)
  else "\\" ++ Text.padLeft '0' 3 (Text.digits 10 b.toNat)

/-- The text of bytes inside a double-quoted string. -/
def escapeBytes (bytes : List UInt8) : String := String.join (bytes.map escapeByte)

end LuaUnpack.Lua
