import LuaUnpack.Decimal.Nearest
import LuaUnpack.Decimal.Shortest
import LuaUnpack.Proofs.Decimal.Value

/-!
# Rounding to the nearest float

Every fraction in the interval around a float is rounded to that float
(`nearestBits_of_contains`). The exponent at which a fraction is rounded is found from its
numerator and denominator alone (`liesAt_exponentAround`); it is the exponent of the float,
or the one below where the fraction is just under a power of two.
-/

namespace LuaUnpack.Decimal

/-! ## Rounding to an integer -/

/-- Whether a fraction is rounded to an integer: it is at most a half away, and less than a
    half if the integer is odd. -/
def RoundsTo (x : ℚ) (t : Nat) : Prop :=
  (t - 1 / 2 ≤ x ∧ x ≤ t + 1 / 2) ∧ (t % 2 = 0 ∨ t - 1 / 2 < x ∧ x < t + 1 / 2)

theorem divideToEven_eq {num den t : Nat} (hden : 0 < den) (h : RoundsTo (num / den) t) :
    divideToEven num den = t := by
  have hden' : (0 : ℚ) < den := by exact_mod_cast hden
  obtain ⟨⟨hlow, hhigh⟩, hstrict⟩ := h
  rw [le_div_iff₀ hden'] at hlow
  rw [div_le_iff₀ hden'] at hhigh
  rw [lt_div_iff₀ hden', div_lt_iff₀ hden'] at hstrict
  -- Numerator and denominator are brought to integers, the quotient is `t` or `t - 1`.
  have hlow' : 2 * (den * t) ≤ 2 * num + den := by
    have : (2 * (den * t) : ℚ) ≤ 2 * num + den := by linarith
    exact_mod_cast this
  have hhigh' : 2 * num ≤ 2 * (den * t) + den := by
    have : (2 * num : ℚ) ≤ 2 * (den * t) + den := by linarith
    exact_mod_cast this
  have hstrict' : t % 2 = 0 ∨ 2 * (den * t) < 2 * num + den ∧ 2 * num < 2 * (den * t) + den := by
    refine hstrict.imp_right fun ⟨hl, hh⟩ => ⟨?_, ?_⟩
    · have : (2 * (den * t) : ℚ) < 2 * num + den := by linarith
      exact_mod_cast this
    · have : (2 * num : ℚ) < 2 * (den * t) + den := by linarith
      exact_mod_cast this
  have hsplit := Nat.div_add_mod num den
  have hmod := Nat.mod_lt num hden
  unfold divideToEven
  generalize num / den = k at *
  generalize num % den = rest at *
  have hbelow : k ≤ t := by
    by_contra hlt
    have := Nat.mul_le_mul_left den (Nat.lt_of_not_le hlt)
    rw [Nat.mul_succ] at this
    omega
  have habove : t ≤ k + 1 := by
    by_contra hlt
    have := Nat.mul_le_mul_left den (Nat.lt_of_not_le hlt)
    rw [Nat.mul_succ, Nat.mul_succ] at this
    omega
  -- In each case the rest decides on which side of a half the quotient is.
  obtain rfl | rfl : t = k ∨ t = k + 1 := by omega
  · dsimp only
    split_ifs <;> omega
  · rw [Nat.mul_succ] at *
    dsimp only
    split_ifs <;> omega

/-! ## The exponent -/

theorem cast_twoPow (n : Nat) : ((twoPow n : Nat) : ℚ) = 2 ^ n := Nat.cast_pow 2 n

/-- A fraction over a power of two, as a quotient of integers. -/
theorem div_zpow_of_nonneg {num den : Nat} {q : Int} (hq : 0 ≤ q) :
    (num : ℚ) / den / 2 ^ q = num / ((den * twoPow q.toNat : Nat) : ℚ) := by
  obtain ⟨k, rfl⟩ := Int.eq_ofNat_of_zero_le hq
  rw [div_div, zpow_natCast, Int.toNat_natCast, Nat.cast_mul, cast_twoPow]

theorem div_zpow_of_neg {num den : Nat} {q : Int} (hq : ¬ 0 ≤ q) :
    (num : ℚ) / den / 2 ^ q = ((num * twoPow (-q).toNat : Nat) : ℚ) / den := by
  obtain ⟨k, rfl⟩ : ∃ k : Nat, q = -k := ⟨(-q).toNat, by omega⟩
  rw [zpow_neg, zpow_natCast, div_inv_eq_mul, neg_neg, Int.toNat_natCast, div_mul_eq_mul_div,
    Nat.cast_mul, cast_twoPow]

theorem significandAt_eq {num den t : Nat} {q : Int} (hden : 0 < den)
    (h : RoundsTo (num / den / 2 ^ q) t) : significandAt num den q = t := by
  unfold significandAt
  split
  · rename_i hq
    rw [div_zpow_of_nonneg hq] at h
    exact divideToEven_eq (Nat.mul_pos hden (Nat.two_pow_pos _)) h
  · rename_i hq
    rw [div_zpow_of_neg hq] at h
    exact divideToEven_eq hden h

/-- Whether the significand of a fraction at an exponent has 53 bits, or fewer at the
    smallest exponent. -/
structure LiesAt (x : ℚ) (q : Int) : Prop where
  low : Binary64.minExponent ≤ q
  lt : x < 2 ^ (53 + q)
  le : q = Binary64.minExponent ∨ 2 ^ (52 + q) ≤ x

/-- The integers up to a fraction over a power of two, by dividing integers. -/
theorem le_whole_iff {num den t : Nat} {q : Int} (hden : 0 < den) :
    t ≤ (if 0 ≤ q then num / (den * twoPow q.toNat) else num * twoPow (-q).toNat / den) ↔
      (t : ℚ) ≤ num / den / 2 ^ q := by
  split
  · rename_i hq
    have hpos : 0 < den * twoPow q.toNat := Nat.mul_pos hden (Nat.two_pow_pos _)
    have hpos' : (0 : ℚ) < ((den * twoPow q.toNat : Nat) : ℚ) := by exact_mod_cast hpos
    rw [div_zpow_of_nonneg hq, Nat.le_div_iff_mul_le hpos, le_div_iff₀ hpos']
    exact_mod_cast Iff.rfl
  · rename_i hq
    have hpos' : (0 : ℚ) < den := by exact_mod_cast hden
    rw [div_zpow_of_neg hq, Nat.le_div_iff_mul_le hden, le_div_iff₀ hpos']
    exact_mod_cast Iff.rfl

theorem zpow_add_log2_le {num den : Nat} (hnum : num ≠ 0) (hden : den ≠ 0) :
    (2 : ℚ) ^ ((num.log2 : Int) - den.log2 - 1) < num / den ∧
      (num / den : ℚ) < 2 ^ ((num.log2 : Int) - den.log2 + 1) := by
  have hnum₁ : (2 : ℚ) ^ num.log2 ≤ num := by exact_mod_cast Nat.log2_self_le hnum
  have hnum₂ : (num : ℚ) < 2 ^ (num.log2 + 1) := by exact_mod_cast Nat.lt_log2_self
  have hden₁ : (2 : ℚ) ^ den.log2 ≤ den := by exact_mod_cast Nat.log2_self_le hden
  have hden₂ : (den : ℚ) < 2 ^ (den.log2 + 1) := by exact_mod_cast Nat.lt_log2_self
  have hpos : (0 : ℚ) < den := by exact_mod_cast Nat.pos_of_ne_zero hden
  constructor
  · rw [lt_div_iff₀ hpos]
    calc (2 : ℚ) ^ ((num.log2 : Int) - den.log2 - 1) * den
        < 2 ^ ((num.log2 : Int) - den.log2 - 1) * 2 ^ (den.log2 + 1) := by gcongr
      _ = 2 ^ num.log2 := by
        rw [← zpow_natCast, ← zpow_natCast, ← zpow_add₀ two_ne_zero]
        congr 1
        push_cast
        ring
      _ ≤ num := hnum₁
  · rw [div_lt_iff₀ hpos]
    calc (num : ℚ) < 2 ^ (num.log2 + 1) := hnum₂
      _ = 2 ^ ((num.log2 : Int) - den.log2 + 1) * 2 ^ den.log2 := by
        rw [← zpow_natCast, ← zpow_natCast, ← zpow_add₀ two_ne_zero]
        congr 1
        push_cast
        ring
      _ ≤ 2 ^ ((num.log2 : Int) - den.log2 + 1) * den := by gcongr

theorem liesAt_exponentAround {num den : Nat} (hnum : num ≠ 0) (hden : den ≠ 0) :
    LiesAt (num / den) (exponentAround num den) := by
  obtain ⟨hlow, hhigh⟩ := zpow_add_log2_le hnum hden
  unfold exponentAround
  dsimp only
  generalize hguess : (num.log2 : Int) - den.log2 - 53 = guess at *
  rw [show (num.log2 : Int) - den.log2 - 1 = 52 + guess by omega] at hlow
  rw [show (num.log2 : Int) - den.log2 + 1 = 54 + guess by omega] at hhigh
  have hscale : (0 : ℚ) < 2 ^ guess := by positivity
  -- The logarithms leave two exponents; whether the quotient has 54 bits decides between them.
  have hwhole : twoPow 53 ≤ _ ↔ ((twoPow 53 : Nat) : ℚ) ≤ num / den / 2 ^ guess :=
    le_whole_iff (Nat.pos_of_ne_zero hden)
  rw [le_div_iff₀ hscale] at hwhole
  have hpow : ((twoPow 53 : Nat) : ℚ) * 2 ^ guess = 2 ^ (53 + guess) := by
    rw [zpow_add₀ two_ne_zero, cast_twoPow]
    rfl
  rw [hpow] at hwhole
  generalize (if 0 ≤ guess then num / (den * twoPow guess.toNat)
    else num * twoPow (-guess).toNat / den) = whole at *
  -- Both guesses are right up to the smallest exponent.
  have hexact : ∀ q, (2 : ℚ) ^ (52 + q) ≤ num / den → (num / den : ℚ) < 2 ^ (53 + q) →
      LiesAt (num / den) (max (-1074) q) := by
    intro q hle hlt
    refine ⟨le_max_left _ _, hlt.trans_le ?_, ?_⟩
    · gcongr
      · exact one_le_two
      · exact le_max_right _ _
    · rcases le_total q (-1074) with hq | hq
      · exact .inl (max_eq_left hq)
      · rw [max_eq_right hq]
        exact .inr hle
  split
  · rename_i h
    refine hexact _ ?_ ?_
    · rw [show 52 + (guess + 1) = 53 + guess by ring]
      exact hwhole.1 h
    · rw [show 53 + (guess + 1) = 54 + guess by ring]
      exact hhigh
  · rename_i h
    exact hexact _ hlow.le (lt_of_not_ge fun hge => h (hwhole.2 hge))

/-- A fraction has one exponent. -/
theorem LiesAt.unique {x : ℚ} {q q' : Int} (h : LiesAt x q) (h' : LiesAt x q') : q = q' := by
  have hle : ∀ {a b : Int}, LiesAt x a → LiesAt x b → a ≤ b := by
    intro a b ha hb
    obtain rfl | hlow := ha.le
    · exact hb.low
    · have := (zpow_lt_zpow_iff_right₀ one_lt_two).1 (hlow.trans_lt hb.lt)
      omega
  exact le_antisymm (hle h h') (hle h' h)

/-! ## The float around a fraction -/

/-- Whether a number, in quarters of `2 ^ q`, lies in an interval. -/
def Interval.Contains (v : Interval) (x : ℚ) : Prop :=
  (v.low ≤ x ∧ x ≤ v.high) ∧ (v.closed = true ∨ v.low < x ∧ x < v.high)

namespace Binary64

/-- Whether a positive float is taken apart into a significand and an exponent. -/
structure IsCanonical (m : Nat) (q : Int) : Prop where
  pos : 0 < m
  lt : m < twoPow 53
  low : minExponent ≤ q
  high : q ≤ 971
  full : q = minExponent ∨ twoPow 52 ≤ m

/-- The bits of the float with a significand and an exponent. -/
def bitsOf (m : Nat) (q : Int) : Nat :=
  if m < twoPow 52 then m else (q + 1075).toNat * twoPow 52 + (m - twoPow 52)

theorem IsCanonical.bitsOf_lt {m : Nat} {q : Int} (h : IsCanonical m q) :
    bitsOf m q < 2047 * twoPow 52 := by
  have hlt : m < 2 ^ 53 := h.lt
  have hhigh := h.high
  change (if m < 2 ^ 52 then m else (q + 1075).toNat * 2 ^ 52 + (m - 2 ^ 52)) < 2047 * 2 ^ 52
  split <;> omega

end Binary64

/-- The exponent and the significand to which a fraction is rounded say what the nearest
    float is. -/
theorem nearestBits_eq {num den t : Nat} {q : Int} (hnum : num ≠ 0) (hden : den ≠ 0)
    (hq : LiesAt (num / den) q) (ht : RoundsTo (num / den / 2 ^ q) t) :
    nearestBits num den = min (2047 * twoPow 52) (Binary64.bitsOf t q) := by
  have hexponent : exponentAround num den = q := (liesAt_exponentAround hnum hden).unique hq
  have hsignificand := significandAt_eq (Nat.pos_of_ne_zero hden) ht
  have hnum' : (num == 0) = false := beq_false_of_ne hnum
  simp only [nearestBits, hnum', Bool.false_eq_true, if_false, hexponent, hsignificand,
    Binary64.bitsOf]
  split
  · rename_i hsmall
    exact (min_eq_right (hsmall.le.trans (by decide))).symm
  · rfl

theorem liesAt_mul_zpow {y : ℚ} {q : Int} (hq : Binary64.minExponent ≤ q) (hlt : y < 2 ^ 53)
    (hle : q = Binary64.minExponent ∨ 2 ^ 52 ≤ y) : LiesAt (y * 2 ^ q) q := by
  have hscale : (0 : ℚ) < 2 ^ q := by positivity
  refine ⟨hq, ?_, hle.imp_right fun hle => ?_⟩
  · rw [zpow_add₀ two_ne_zero]
    exact mul_lt_mul_of_pos_right hlt hscale
  · rw [zpow_add₀ two_ne_zero]
    exact mul_le_mul_of_nonneg_right hle hscale.le

namespace Interval

variable {m : Nat} {q : Int} {y : ℚ}

theorem roundsTo_of_contains (hm : 0 < m) (h : (around m q).Contains (4 * y)) : RoundsTo y m := by
  obtain ⟨⟨hlow, hhigh⟩, hstrict⟩ := h
  -- The lower end is a half below, or only a quarter; either way it is not below the half.
  have hlow' : (4 * m - 2 : ℚ) ≤ (around m q).low := by
    have : 4 * m ≤ (around m q).low + 2 := by
      unfold around
      dsimp only
      split <;> omega
    have : (4 * m : ℚ) ≤ (around m q).low + 2 := by exact_mod_cast this
    linarith
  have hhigh' : ((around m q).high : ℚ) = 4 * m + 2 := by
    unfold around
    push_cast
    rfl
  refine ⟨⟨by linarith, by linarith⟩, hstrict.imp (fun hclosed => ?_) fun hopen => ?_⟩
  · exact beq_iff_eq.1 hclosed
  · exact ⟨by linarith, by linarith⟩

/-- Just below a power of two the interval is narrow. -/
theorem le_of_contains (hm : m = twoPow 52) (hq : Binary64.minExponent < q)
    (h : (around m q).Contains (4 * y)) : m - 1 / 4 ≤ y := by
  obtain ⟨⟨hlow, -⟩, -⟩ := h
  have hnarrow : (around m q).low = 4 * m - 1 := by
    simp [around, hm, hq]
  rw [hnarrow, Nat.cast_sub (by rw [hm]; decide)] at hlow
  push_cast at hlow
  linarith

end Interval

open Binary64 in
/-- Every fraction in the interval around a float is rounded to the float. -/
theorem nearestBits_of_contains {num den m : Nat} {q : Int} (hm : IsCanonical m q)
    (hden : den ≠ 0) (h : (Interval.around m q).Contains (4 * (num / den / 2 ^ q))) :
    nearestBits num den = bitsOf m q := by
  have hscale : (2 : ℚ) ^ q ≠ 0 := by positivity
  have hround := Interval.roundsTo_of_contains hm.pos h
  have hnarrow := fun hm hq => Interval.le_of_contains hm hq h
  obtain ⟨y, hy⟩ : ∃ y : ℚ, (num / den / 2 ^ q : ℚ) = y := ⟨_, rfl⟩
  have hx : (num / den : ℚ) = y * 2 ^ q := by rw [← hy, div_mul_cancel₀ _ hscale]
  rw [hy] at hround hnarrow
  have hone : (1 : ℚ) ≤ m := by exact_mod_cast hm.pos
  have hlt : (m : ℚ) + 1 ≤ 2 ^ 53 := by exact_mod_cast hm.lt
  have hnum : num ≠ 0 := by
    rintro rfl
    have := hround.1.1
    rw [← hy, Nat.cast_zero, zero_div, zero_div] at this
    linarith
  by_cases hle : q = minExponent ∨ 2 ^ 52 ≤ y
  · have hlies := liesAt_mul_zpow hm.low (by linarith [hround.1.2]) hle
    rw [nearestBits_eq hnum hden (hx ▸ hlies) (hy ▸ hround)]
    exact min_eq_right hm.bitsOf_lt.le
  · -- The fraction is rounded up to a power of two, at the exponent below.
    rw [not_or, not_le] at hle
    obtain ⟨hq, hbelow⟩ := hle
    have hq' : minExponent < q := lt_of_le_of_ne hm.low (Ne.symm hq)
    have hfull : twoPow 52 ≤ m := hm.full.resolve_left hq
    have hpower : m = twoPow 52 := by
      refine le_antisymm (Nat.le_of_lt_succ ?_) hfull
      have : (m : ℚ) < 2 ^ 52 + 1 := by linarith [hround.1.1]
      exact_mod_cast this
    have hquarter := hnarrow hpower hq'
    rw [hpower, cast_twoPow] at hquarter
    have hhalf : y * 2 ^ q = 2 * y * 2 ^ (q - 1) := by
      rw [zpow_sub_one₀ two_ne_zero]
      ring
    have hlies : LiesAt (2 * y * 2 ^ (q - 1)) (q - 1) :=
      liesAt_mul_zpow (Int.le_sub_one_of_lt hq') (by linarith) (.inr (by linarith))
    have hround' : RoundsTo (2 * y) (twoPow 53) := by
      refine ⟨⟨?_, ?_⟩, .inl (by decide)⟩ <;> rw [cast_twoPow] <;> linarith
    have hy' : (num / den / 2 ^ (q - 1) : ℚ) = 2 * y := by
      rw [hx, hhalf, mul_div_cancel_right₀ _ (by positivity)]
    rw [nearestBits_eq hnum hden (hx ▸ hhalf ▸ hlies) (hy' ▸ hround')]
    have hsame : bitsOf (twoPow 53) (q - 1) = bitsOf m q := by
      have hlow : (-1074 : Int) < q := hq'
      change (q - 1 + 1075).toNat * 2 ^ 52 + (2 ^ 53 - 2 ^ 52) = _
      rw [hpower]
      change _ = (q + 1075).toNat * 2 ^ 52 + (2 ^ 52 - 2 ^ 52)
      omega
    rw [hsame]
    exact min_eq_right hm.bitsOf_lt.le

end LuaUnpack.Decimal
