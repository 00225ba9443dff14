/-!
# Widths

Powers of two, and the ranges of the integers that fit into a number of bits.
-/

namespace LuaUnpack

/-- A power of two. -/
abbrev twoPow (n : Nat) : Nat := Nat.pow 2 n

/-- A power of ten. -/
abbrev tenPow (n : Nat) : Nat := Nat.pow 10 n

/-- The largest integer without sign that fits into a number of bits. -/
def maxUnsigned (bits : Nat) : Nat := twoPow bits - 1

/-- The least integer that fits into a number of bits. -/
def minSigned (bits : Nat) : Int := -(twoPow (bits - 1) : Int)

/-- The largest integer that fits into a number of bits. -/
def maxSigned (bits : Nat) : Int := (twoPow (bits - 1) : Int) - 1

end LuaUnpack
