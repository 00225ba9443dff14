import LuaUnpack.Width

/-!
# The float nearest to a fraction

Every positive fraction lies between two neighbouring floats, or beyond the
largest one. The nearer neighbour is taken, and of two equally near ones the one
with the even significand.
-/

namespace LuaUnpack.Decimal

/-- The quotient rounded to the nearest integer, a half to the even one. -/
def divideToEven (num den : Nat) : Nat :=
  let quotient := num / den
  let twice := 2 * (num % den)
  if twice < den then quotient
  else if den < twice then quotient + 1
  else quotient + quotient % 2

/-- The fraction `num / (den * 2 ^ q)` rounded to an integer. -/
def significandAt (num den : Nat) (q : Int) : Nat :=
  if 0 ≤ q then divideToEven num (den * twoPow q.toNat)
  else divideToEven (num * twoPow (-q).toNat) den

/-- The exponent of the floats around `num / den`: the significand there has 53
    bits, or fewer at the smallest exponent. -/
def exponentAround (num den : Nat) : Int :=
  let guess : Int := (Nat.log2 num : Int) - Nat.log2 den - 53
  let whole :=
    if 0 ≤ guess then num / (den * twoPow guess.toNat) else num * twoPow (-guess).toNat / den
  max (-1074) (if twoPow 53 ≤ whole then guess + 1 else guess)

/-- The bits of the float nearest to `num / den`. -/
def nearestBits (num den : Nat) : Nat :=
  if num == 0 then 0
  else
    let q := exponentAround num den
    let m := significandAt num den q
    if m < twoPow 52 then m
    else min (2047 * twoPow 52) ((q + 1075).toNat * twoPow 52 + (m - twoPow 52))

/-- The float nearest to `num / den`; a fraction beyond the largest float is
    infinite. -/
def nearest (num den : Nat) : Float := Float.ofBits (UInt64.ofNat (nearestBits num den))

/-- The float nearest to an integer. -/
def nearestInt (n : Int) : Float :=
  if n < 0 then -(nearest n.natAbs 1) else nearest n.natAbs 1

/-- The float nearest to `m * 10 ^ e`. An exponent that puts the value beyond
    every float, or below half of the smallest one, is settled without computing
    the power. -/
def nearestDecimal (m : Nat) (e : Int) : Float :=
  if m == 0 then nearest 0 1
  else
    let bits : Int := Nat.log2 m
    if 400 < bits * 3 / 10 + e then Float.ofBits 0x7FF0000000000000
    else if (bits + 1) * 31 / 100 + 1 + e < -400 then nearest 0 1
    else if 0 ≤ e then nearest (m * tenPow e.toNat) 1
    else nearest m (tenPow (-e).toNat)

end LuaUnpack.Decimal
