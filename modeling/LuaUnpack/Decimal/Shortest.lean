import LuaUnpack.Decimal.Binary64
import LuaUnpack.Text.Numeral
import LuaUnpack.Width

/-!
# The fewest digits that read back

A float is the nearest one to every real in an interval around it. It is written
with the decimal of that interval that has the fewest digits; of several, the one
nearest to the value, and of two equally near the larger. The text is always
positional: no exponent is ever written.
-/

namespace LuaUnpack.Decimal

/-- The reals that read back as `m * 2 ^ q`, in quarters of `2 ^ q`: the value
    and both ends, which belong to the interval when `m` is even. -/
structure Interval where
  low : Nat
  value : Nat
  high : Nat
  closed : Bool

/-- The interval around `m * 2 ^ q`. Below a power of two the floats lie twice as
    close, but not below the smallest normal one. -/
def Interval.around (m : Nat) (q : Int) : Interval :=
  let narrow := m == twoPow 52 && Binary64.minExponent < q
  ⟨4 * m - (if narrow then 1 else 2), 4 * m, 4 * m + 2, m % 2 == 0⟩

/-- The factors that bring quarters of `2 ^ q` and multiples of `10 ^ i` to one
    unit. -/
def scales (q i : Int) : Nat × Nat :=
  (twoPow (q - 2).toNat * tenPow (-i).toNat, twoPow (2 - q).toNat * tenPow i.toNat)

/-- The multiple of `10 ^ i` nearest to the value, if one reads back. -/
def candidate? (v : Interval) (q i : Int) : Option Nat :=
  let (a, b) := scales q i
  let below := v.value * a / b
  let within (x : Nat) : Bool :=
    if v.closed then v.low * a ≤ x && x ≤ v.high * a else v.low * a < x && x < v.high * a
  let lowHit := within (below * b)
  let highHit := within ((below + 1) * b)
  let lowGap := v.value * a - below * b
  let highGap := (below + 1) * b - v.value * a
  if lowHit && (!highHit || lowGap < highGap) then some below
  else if highHit then some (below + 1)
  else none

/-- The first decimal that reads back on grids that get finer by a digit. -/
def scan (v : Interval) (q : Int) : Nat → Int → Nat × Int
  | 0, i => (0, i)
  | fuel + 1, i =>
    match candidate? v q i with
    | some d => (d, i)
    | none => scan v q fuel (i - 1)

/-- An exponent of ten whose power is above `m * 2 ^ q`. -/
def gridAbove (m : Nat) (q : Int) : Int :=
  ((Nat.log2 m : Int) + q + 1) * 30103 / 100000 + 2

/-- Digits and exponent of ten of the shortest decimal of `m * 2 ^ q`. The
    grids looked at are enough: the finest one has seventeen digits or more. -/
def shortest (m : Nat) (q : Int) : Nat × Int :=
  scan (Interval.around m q) q 24 (gridAbove m q)

/-- The decimal `d * 10 ^ i` written without an exponent. -/
def positional (d : Nat) (i : Int) : String :=
  let digits := Text.digits 10 d
  if 0 ≤ i then digits ++ Text.repeated i.toNat "0"
  else
    let places := (-i).toNat
    let padded := (Text.padLeft '0' (places + 1) digits).toList
    let cut := padded.length - places
    String.ofList (padded.take cut) ++ "." ++ String.ofList (padded.drop cut)

/-- The text of a magnitude `m * 2 ^ q`. -/
def magnitudeText (m : Nat) (q : Int) : String :=
  if m == 0 then "0"
  else
    let (d, i) := shortest m q
    positional d i

/-- The text of any float. -/
def text (x : Float) : String :=
  match Binary64.ofFloat x with
  | .nan => "NaN"
  | .infinite negative => if negative then "-inf" else "inf"
  | .finite negative m q => (if negative then "-" else "") ++ magnitudeText m q

end LuaUnpack.Decimal
