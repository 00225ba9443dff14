/-!
# Integers as text

Reading integers in a base between 2 and 36, and laying numbers out in columns.
-/

namespace LuaUnpack.Text

/-- The value of a digit; letters of either case go on after nine. -/
def digitValue? (base : Nat) (c : Char) : Option Nat :=
  let value :=
    if '0' ≤ c && c ≤ '9' then some (c.toNat - '0'.toNat)
    else if 'a' ≤ c && c ≤ 'z' then some (c.toNat - 'a'.toNat + 10)
    else if 'A' ≤ c && c ≤ 'Z' then some (c.toNat - 'A'.toNat + 10)
    else none
  value.filter (· < base)

/-- Whether a character is a decimal digit. -/
def isDigit (c : Char) : Bool := '0' ≤ c && c ≤ '9'

/-- Whether a character is a hexadecimal digit. -/
def isHexDigit (c : Char) : Bool := (digitValue? 16 c).isSome

/-- Reads digits after a value read so far. -/
def readDigits? (base : Nat) : Nat → List Char → Option Nat
  | acc, [] => some acc
  | acc, c :: rest => do
    let d ← digitValue? base c
    readDigits? base (acc * base + d) rest

/-- Reads a non-empty run of digits. -/
def readMagnitude? (base : Nat) : List Char → Option Nat
  | [] => none
  | digits => readDigits? base 0 digits

/-- Reads an unsigned integer of at most `limit`; a plus sign may stand before
    it. -/
def readNat? (base limit : Nat) (text : List Char) : Option Nat :=
  let value :=
    match text with
    | '+' :: digits => readMagnitude? base digits
    | digits => readMagnitude? base digits
  value.filter (· ≤ limit)

/-- Reads an integer between `low` and `high`, with or without a sign. -/
def readInt? (base : Nat) (low high : Int) (text : List Char) : Option Int :=
  let value : Option Int :=
    match text with
    | '+' :: digits => (readMagnitude? base digits).map Int.ofNat
    | '-' :: digits => (readMagnitude? base digits).map fun n => -(n : Int)
    | digits => (readMagnitude? base digits).map Int.ofNat
  value.filter fun n => decide (low ≤ n ∧ n ≤ high)

/-- The text padded with `fill` on the left to a width. -/
def padLeft (fill : Char) (width : Nat) (s : String) : String :=
  String.ofList (List.replicate (width - s.length) fill) ++ s

/-- The text padded with blanks on the right to a width. -/
def padRight (width : Nat) (s : String) : String :=
  s ++ String.ofList (List.replicate (width - s.length) ' ')

/-- The digits of a number in a base up to 16, in lower case. -/
def digits (base n : Nat) : String := String.ofList (Nat.toDigits base n)

/-- A text repeated `n` times. -/
def repeated (n : Nat) (s : String) : String := String.join (List.replicate n s)

end LuaUnpack.Text
