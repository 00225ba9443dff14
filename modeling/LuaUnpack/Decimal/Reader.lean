import LuaUnpack.Decimal.Nearest
import LuaUnpack.Text.Numeral

/-!
# Reading a decimal

The texts that denote a float: an optional sign, then either digits with an
optional point and an optional exponent, or one of the words for infinity and for
what is no number, in any case. The value is the float nearest to the decimal.
-/

namespace LuaUnpack.Decimal

/-- The digits of an exponent with an optional sign; at least one digit is
    needed. -/
def readExponent? : List Char → Option Int
  | '+' :: digits => (Text.readMagnitude? 10 digits).map Int.ofNat
  | '-' :: digits => (Text.readMagnitude? 10 digits).map fun n => -(n : Int)
  | digits => (Text.readMagnitude? 10 digits).map Int.ofNat

/-- A run of digits, a point and a run of digits, of which the point and one run
    may be missing; the rest is what follows. -/
def splitMantissa (text : List Char) : List Char × List Char × List Char :=
  let whole := text.takeWhile Text.isDigit
  match text.dropWhile Text.isDigit with
  | '.' :: rest => (whole, rest.takeWhile Text.isDigit, rest.dropWhile Text.isDigit)
  | rest => (whole, [], rest)

/-- Reads an unsigned decimal. -/
def readUnsigned? (text : List Char) : Option Float := do
  let (whole, fraction, rest) := splitMantissa text
  let m ← Text.readMagnitude? 10 (whole ++ fraction)
  let shift : Int := fraction.length
  match rest with
  | [] => some (nearestDecimal m (-shift))
  | c :: exponent =>
    if c == 'e' || c == 'E' then
      let e ← readExponent? exponent
      some (nearestDecimal m (e - shift))
    else
      none

/-- Reads a decimal or one of the words for a number that is not finite. -/
def read? (text : List Char) : Option Float := do
  let (negative, body) :=
    match text with
    | '-' :: body => (true, body)
    | '+' :: body => (false, body)
    | body => (false, body)
  let lower := String.ofList (body.map Char.toLower)
  let magnitude ←
    if lower == "inf" || lower == "infinity" then some (Float.ofBits 0x7FF0000000000000)
    else if lower == "nan" then some (Float.ofBits 0x7FF8000000000000)
    else readUnsigned? body
  some (if negative then -magnitude else magnitude)

end LuaUnpack.Decimal
