import LuaUnpack.Decimal.Binary64
import Mathlib.Algebra.Order.Field.Power
import Mathlib.Data.Rat.Cast.Order
import Mathlib.Tactic.Linarith
import Mathlib.Tactic.NormNum
import Mathlib.Tactic.Positivity
import Mathlib.Tactic.Ring

/-!
# The values of floats

A finite float stands for a rational number (`Binary64.value?`). Where that number is an
integer of moderate size, cutting the float to a word gives just that integer
(`toInt_toInt64`). Large integers have gaps between them: from `2 ^ 54` on, only multiples
of four are floats (`four_dvd_of_value?`).
-/

namespace LuaUnpack.Decimal.Binary64

/-- The exact value of a finite float. -/
def value? : Binary64 → Option ℚ
  | finite negative m q => some ((if negative then -1 else 1) * (m * 2 ^ q))
  | _ => none

/-- A magnitude that is an integer is not cut. -/
theorem wholePart_of_eq {m n : Nat} {q : Int} (h : (m : ℚ) * 2 ^ q = n) : wholePart m q = n := by
  rw [wholePart]
  split
  · rename_i hq
    obtain ⟨k, rfl⟩ := Int.eq_ofNat_of_zero_le hq
    rw [zpow_natCast] at h
    exact_mod_cast h
  · -- The significand is a multiple of the power of two it is divided by.
    rename_i hq
    obtain ⟨k, rfl⟩ : ∃ k : Nat, q = -k := ⟨(-q).toNat, by omega⟩
    rw [zpow_neg, zpow_natCast, mul_inv_eq_iff_eq_mul₀ (by positivity)] at h
    have hm : m = n * twoPow k := by exact_mod_cast h
    rw [hm, neg_neg, Int.toNat_natCast]
    exact Nat.mul_div_cancel n (Nat.two_pow_pos k)

theorem clamp_of_le {low high n : Int} (hlow : low ≤ n) (hhigh : n ≤ high) :
    clamp low high n = n := by
  rw [clamp, min_eq_right hhigh, max_eq_right hlow]

/-- A float that stands for an integer in a range is cut to that integer. -/
theorem toIntIn_of_value? {low high z : Int} {x : Float} (h : (ofFloat x).value? = some (z : ℚ))
    (hlow : low ≤ z) (hhigh : z ≤ high) : toIntIn low high x = z := by
  rw [toIntIn]
  cases hx : ofFloat x with
  | nan =>
    rw [hx] at h
    cases h
  | infinite negative =>
    rw [hx] at h
    cases h
  | finite negative m q =>
    rw [hx] at h
    have hz := Option.some.inj h
    have hpos : (0 : ℚ) ≤ m * 2 ^ q := by positivity
    -- The magnitude is not negative, so the sign of the integer is that of the float.
    have hwhole : (if negative then -(wholePart m q : Int) else wholePart m q) = z := by
      cases negative with
      | false =>
        rw [if_neg Bool.false_ne_true, one_mul] at hz
        have hz' : 0 ≤ z := by exact_mod_cast hz ▸ hpos
        obtain ⟨n, rfl⟩ := Int.eq_ofNat_of_zero_le hz'
        rw [if_neg Bool.false_ne_true, wholePart_of_eq (n := n) (by exact_mod_cast hz)]
      | true =>
        rw [if_pos rfl, neg_one_mul, neg_eq_iff_eq_neg] at hz
        have hz' : 0 ≤ -z := by exact_mod_cast hz ▸ hpos
        obtain ⟨n, hn⟩ := Int.eq_ofNat_of_zero_le hz'
        rw [if_pos rfl, wholePart_of_eq (n := n) (by rw [hz]; exact_mod_cast hn)]
        omega
    dsimp only
    rw [hwhole, clamp_of_le hlow hhigh]

/-- A float that stands for an integer of less than 64 bits is cut to that integer. -/
theorem toInt_toInt64 {x : Float} {z : Int} (h : (ofFloat x).value? = some (z : ℚ))
    (hz : |z| < 2 ^ 63) : (toInt64 x).toInt = z := by
  obtain ⟨hlow, hhigh⟩ := abs_lt.1 hz
  have hmin : minSigned 64 ≤ z := hlow.le
  have hmax : z ≤ maxSigned 64 := Int.le_sub_one_of_lt hhigh
  rw [toInt64, toIntIn_of_value? h hmin hmax, Int64.toInt_ofInt_of_le hlow.le hhigh]

/-! ## Gaps -/

theorem significand_lt {x : Float} {negative : Bool} {m : Nat} {q : Int}
    (h : ofFloat x = finite negative m q) : m < twoPow 53 := by
  rw [ofFloat, ofBits] at h
  have hfraction : x.toBits.toNat % twoPow 52 < twoPow 52 := Nat.mod_lt _ (Nat.two_pow_pos 52)
  split at h
  · split at h <;> cases h
  · split at h
    · cases h
      exact hfraction.trans (by decide)
    · cases h
      exact Nat.add_lt_add_left hfraction _

/-- From `2 ^ 54` on, a float that stands for an integer stands for a multiple of four:
    its significand is too short for the last two bits. -/
theorem four_dvd_of_value? {x : Float} {z : Int} (h : (ofFloat x).value? = some (z : ℚ))
    (hz : 2 ^ 54 ≤ z) : 4 ∣ z := by
  cases hx : ofFloat x with
  | nan =>
    rw [hx] at h
    cases h
  | infinite negative =>
    rw [hx] at h
    cases h
  | finite negative m q =>
    rw [hx] at h
    have hvalue := Option.some.inj h
    have hpos : (0 : ℚ) ≤ m * 2 ^ q := by positivity
    have hlarge : (2 : ℚ) ^ 54 ≤ z := by exact_mod_cast hz
    cases negative with
    | true =>
      rw [if_pos rfl, neg_one_mul] at hvalue
      linarith
    | false =>
      rw [if_neg Bool.false_ne_true, one_mul] at hvalue
      -- From an exponent of two on, the power of two has the factor four.
      by_cases hq : 2 ≤ q
      · obtain ⟨k, rfl⟩ : ∃ k : Nat, q = k + 2 := ⟨(q - 2).toNat, by omega⟩
        refine ⟨m * 2 ^ k, ?_⟩
        have hcast : (z : ℚ) = 4 * (m * 2 ^ k) := by
          rw [← hvalue, zpow_add₀ two_ne_zero, zpow_natCast]
          norm_num
          ring
        exact_mod_cast hcast
      · -- With an exponent below two, the float is less than `2 ^ 54`.
        have hm : (m : ℚ) < 2 ^ 53 := by exact_mod_cast significand_lt hx
        have hlt : (z : ℚ) < 2 ^ 54 :=
          calc
            (z : ℚ) = m * 2 ^ q := hvalue.symm
            _ ≤ m * 2 ^ (1 : Int) := by
              gcongr
              · exact one_le_two
              · omega
            _ < 2 ^ 54 := by
              rw [zpow_one]
              linarith
        exact absurd hlarge (not_le_of_gt hlt)

end LuaUnpack.Decimal.Binary64
