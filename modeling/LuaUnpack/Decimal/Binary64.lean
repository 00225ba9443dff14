import LuaUnpack.Width

/-!
# Binary floating point, taken apart

A number of the scripts is a 64-bit float. Its bits are taken apart here into an
integer significand and a power of two, so that whatever depends on the exact
value (printing, rounding to an integer) is done with integers.
-/

namespace LuaUnpack.Decimal

/-- What the bits of a float stand for: a finite one is
    `significand * 2 ^ exponent` with a sign. -/
inductive Binary64 where
  | nan
  | infinite (negative : Bool)
  | finite (negative : Bool) (significand : Nat) (exponent : Int)
deriving DecidableEq, Repr

namespace Binary64

/-- The exponent of the smallest positive float. -/
def minExponent : Int := -1074

/-- Takes the bits of a float apart. -/
def ofBits (bits : UInt64) : Binary64 :=
  let n := bits.toNat
  let negative := n / twoPow 63 == 1
  let biased : Nat := n / twoPow 52 % twoPow 11
  let fraction : Nat := n % twoPow 52
  if biased == 2047 then
    if fraction == 0 then infinite negative else nan
  else if biased == 0 then
    finite negative fraction minExponent
  else
    finite negative (twoPow 52 + fraction) (minExponent + (biased : Int) - 1)

/-- Takes a float apart. -/
def ofFloat (x : Float) : Binary64 := ofBits x.toBits

/-- Whether the sign bit is set. -/
def isNegative (x : Float) : Bool := x.toBits.toNat / twoPow 63 == 1

/-- The magnitude `m * 2 ^ q`, cut to an integer. -/
def wholePart (m : Nat) (q : Int) : Nat :=
  if 0 ≤ q then m * twoPow q.toNat else m / twoPow (-q).toNat

/-- Whether `m * 2 ^ q` is an integer. -/
def isWhole (m : Nat) (q : Int) : Bool :=
  0 ≤ q || m % twoPow (-q).toNat == 0

/-- An integer moved to the nearest end of a range it is not in. -/
def clamp (low high n : Int) : Int := max low (min high n)

/-- The integer part of a float, moved into a range; what is no number counts as
    zero. -/
def toIntIn (low high : Int) (x : Float) : Int :=
  match ofFloat x with
  | nan => 0
  | infinite true => low
  | infinite false => high
  | finite negative m q =>
    let whole : Int := wholePart m q
    clamp low high (if negative then -whole else whole)

/-- The integer part as a signed 64-bit word. -/
def toInt64 (x : Float) : Int64 := Int64.ofInt (toIntIn (minSigned 64) (maxSigned 64) x)

/-- The magnitude `m * 2 ^ q`, rounded to an integer; a half goes up. -/
def nearestWhole (m : Nat) (q : Int) : Nat :=
  if 0 ≤ q then m * twoPow q.toNat
  else
    let den := twoPow (-q).toNat
    (2 * m + den) / (2 * den)

/-- The nearest signed 64-bit word; a half goes away from zero, and what is no number
    counts as zero. -/
def roundToInt64 (x : Float) : Int64 :=
  match ofFloat x with
  | finite negative m q =>
    let whole : Int := nearestWhole m q
    Int64.ofInt (clamp (minSigned 64) (maxSigned 64) (if negative then -whole else whole))
  | _ => toInt64 x

/-- The integer part as an unsigned 32-bit word. -/
def toUInt32 (x : Float) : UInt32 := UInt32.ofNat (toIntIn 0 (maxUnsigned 32) x).toNat

/-- The integer part as a signed 32-bit word. -/
def toInt32 (x : Float) : Int32 := Int32.ofInt (toIntIn (minSigned 32) (maxSigned 32) x)

/-- The integer part as a byte. -/
def toUInt8 (x : Float) : UInt8 := UInt8.ofNat (toIntIn 0 255 x).toNat

/-- Whether a float is finite and has no fractional part. -/
def isInteger (x : Float) : Bool :=
  match ofFloat x with
  | finite _ m q => isWhole m q
  | _ => false

end Binary64

end LuaUnpack.Decimal
