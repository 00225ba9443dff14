import LuaUnpack.Proofs.Decimal.Rounding
import Mathlib.Tactic.FieldSimp

/-!
# The shortest decimal

The decimal that is written for a float lies in the interval around it
(`contains_shortest`), so it is rounded to that float (`nearestDecimal_of_contains`). The
search for it ends, since the last grid that is looked at is finer than the interval.
-/

namespace LuaUnpack.Decimal

/-! ## Powers of ten and of two -/

/-- A power of ten is at most a power of two, by `10 ^ 3 ≤ 2 ^ 10` above one and by
    `2 ^ 93 ≤ 10 ^ 28` below. -/
theorem ten_zpow_le_two_zpow {k n : Int}
    (h : 0 ≤ k ∧ 10 * k ≤ 3 * n ∨ k ≤ 0 ∧ 93 * k ≤ 28 * n) : (10 : ℚ) ^ k ≤ 2 ^ n := by
  obtain ⟨hk, hle⟩ | ⟨hk, hle⟩ := h
  · -- Both sides are raised to the third power, for `10 ^ 3 ≤ 2 ^ 10` to be used.
    refine (pow_le_pow_iff_left₀ (by positivity) (by positivity) three_ne_zero).1 ?_
    obtain ⟨j, rfl⟩ := Int.eq_ofNat_of_zero_le hk
    calc ((10 : ℚ) ^ (j : Int)) ^ 3 = (10 ^ 3) ^ j := by
          rw [zpow_natCast, ← pow_mul, ← pow_mul, mul_comm]
      _ ≤ (2 ^ 10) ^ j := by
        gcongr
        norm_num
      _ = 2 ^ (10 * (j : Int)) := by
        rw [← pow_mul, ← zpow_natCast]
        norm_num
      _ ≤ 2 ^ (3 * n) := zpow_le_zpow_right₀ one_le_two hle
      _ = (2 ^ n) ^ 3 := by
        rw [mul_comm, zpow_mul]
        rfl
  · refine (pow_le_pow_iff_left₀ (by positivity) (by positivity) (show 28 ≠ 0 by decide)).1 ?_
    obtain ⟨j, rfl⟩ : ∃ j : Nat, k = -j := ⟨(-k).toNat, by omega⟩
    calc ((10 : ℚ) ^ (-(j : Int))) ^ 28 = ((10 ^ 28) ^ j)⁻¹ := by
          rw [zpow_neg, zpow_natCast, inv_pow, ← pow_mul, ← pow_mul, mul_comm]
      _ ≤ ((2 ^ 93) ^ j)⁻¹ := by
        gcongr
        norm_num
      _ = 2 ^ (93 * -(j : Int)) := by
        rw [← pow_mul, mul_neg, zpow_neg, ← zpow_natCast]
        norm_num
      _ ≤ 2 ^ (28 * n) := zpow_le_zpow_right₀ one_le_two hle
      _ = (2 ^ n) ^ 28 := by
        rw [mul_comm, zpow_mul]
        rfl

theorem two_zpow_le_ten_zpow {k n : Int}
    (h : 0 ≤ k ∧ 28 * n ≤ 93 * k ∨ k ≤ 0 ∧ 3 * n ≤ 10 * k) : (2 : ℚ) ^ n ≤ 10 ^ k := by
  rw [← inv_le_inv₀ (by positivity) (by positivity), ← zpow_neg, ← zpow_neg]
  exact ten_zpow_le_two_zpow (by omega)

theorem cast_tenPow (n : Nat) : ((tenPow n : Nat) : ℚ) = 10 ^ n := Nat.cast_pow 10 n

/-! ## The search -/

theorem scales_pos (q i : Int) : 0 < (scales q i).1 :=
  Nat.mul_pos (Nat.two_pow_pos _) (Nat.pow_pos (by decide))

theorem zpow_eq_div {b : ℚ} (hb : b ≠ 0) (n : Int) : b ^ n = b ^ n.toNat / b ^ (-n).toNat := by
  rw [← zpow_natCast, ← zpow_natCast, ← zpow_sub₀ hb]
  congr 1
  omega

/-- The two units are those of the grid and of the interval. -/
theorem scales_eq (q i : Int) :
    ((scales q i).2 : ℚ) = (scales q i).1 * (4 * (10 ^ i / 2 ^ q)) := by
  have hten := zpow_eq_div (show (10 : ℚ) ≠ 0 by norm_num) i
  have htwo := zpow_eq_div (two_ne_zero' ℚ) (q - 2)
  rw [zpow_sub₀ two_ne_zero, neg_sub] at htwo
  have hquarter : (2 : ℚ) ^ q = 4 * (2 ^ (q - 2).toNat / 2 ^ (2 - q).toNat) := by
    rw [← htwo]
    norm_num
    ring
  simp only [scales]
  rw [Nat.cast_mul, Nat.cast_mul, cast_twoPow, cast_twoPow, cast_tenPow, cast_tenPow, hten,
    hquarter]
  field_simp

/-- Whether a multiple of the grid lies in the interval, in the common unit. -/
def Interval.hits (v : Interval) (q i : Int) (d : Nat) : Bool :=
  if v.closed then
    v.low * (scales q i).1 ≤ d * (scales q i).2 && d * (scales q i).2 ≤ v.high * (scales q i).1
  else
    v.low * (scales q i).1 < d * (scales q i).2 && d * (scales q i).2 < v.high * (scales q i).1

theorem Interval.hits_iff {v : Interval} {q i : Int} {d : Nat} :
    v.hits q i d = true ↔ v.Contains (4 * (d * 10 ^ i / 2 ^ q)) := by
  have hpos : (0 : ℚ) < (scales q i).1 := by exact_mod_cast scales_pos q i
  have hunit : (4 * (d * 10 ^ i / 2 ^ q) : ℚ) = d * (scales q i).2 / (scales q i).1 := by
    rw [eq_div_iff hpos.ne', scales_eq]
    ring
  rw [Contains, hunit, le_div_iff₀ hpos, div_le_iff₀ hpos, lt_div_iff₀ hpos, div_lt_iff₀ hpos,
    hits]
  cases v.closed with
  | true =>
    simp only [true_or, and_true, if_true, Bool.and_eq_true, decide_eq_true_eq]
    exact_mod_cast Iff.rfl
  | false =>
    simp only [Bool.false_eq_true, false_or, if_false, Bool.and_eq_true, decide_eq_true_eq]
    norm_cast
    exact ⟨fun h => ⟨⟨h.1.le, h.2.le⟩, h⟩, And.right⟩

/-- The grid is looked at right below and right above the value. -/
theorem candidate?_eq (v : Interval) (q i : Int) :
    ∃ below nearer, below = v.value * (scales q i).1 / (scales q i).2 ∧
      candidate? v q i =
        if v.hits q i below && (!v.hits q i (below + 1) || nearer) then some below
        else if v.hits q i (below + 1) then some (below + 1)
        else none :=
  ⟨_, _, rfl, rfl⟩

/-- What is found on a grid lies in the interval. -/
theorem contains_of_candidate? {v : Interval} {q i : Int} {d : Nat}
    (h : candidate? v q i = some d) : v.Contains (4 * (d * 10 ^ i / 2 ^ q)) := by
  obtain ⟨below, nearer, -, heq⟩ := candidate?_eq v q i
  rw [heq] at h
  rw [← Interval.hits_iff]
  split at h
  · rename_i hit
    obtain rfl := Option.some.inj h
    exact (Bool.and_eq_true_iff.1 hit).1
  · split at h
    · rename_i hit
      obtain rfl := Option.some.inj h
      exact hit
    · cases h

/-- On a grid finer than the interval something is found. -/
theorem exists_candidate? {v : Interval} {q i : Int} (hlow : v.low ≤ v.value)
    (hhigh : v.high = v.value + 2) (hgrid : 2 * (10 : ℚ) ^ i < 2 ^ q) :
    ∃ d, candidate? v q i = some d := by
  obtain ⟨below, nearer, hbelow, heq⟩ := candidate?_eq v q i
  -- The next multiple above the value is not beyond the upper end.
  have hhit : v.hits q i (below + 1) = true := by
    have hpos : (0 : ℚ) < (scales q i).1 := by exact_mod_cast scales_pos q i
    have hunit : 0 < (scales q i).2 := by
      have : (0 : ℚ) < (scales q i).2 := by
        rw [scales_eq]
        positivity
      exact_mod_cast this
    have hfine : (scales q i).2 < 2 * (scales q i).1 := by
      have hratio : (10 : ℚ) ^ i / 2 ^ q < 1 / 2 := by
        rw [div_lt_iff₀ (by positivity)]
        linarith
      have : ((scales q i).2 : ℚ) < 2 * (scales q i).1 := by
        rw [scales_eq]
        nlinarith
      exact_mod_cast this
    have hle := Nat.div_mul_le_self (v.value * (scales q i).1) (scales q i).2
    have hlt := Nat.lt_div_mul_add (a := v.value * (scales q i).1) hunit
    rw [← hbelow] at hle hlt
    have hlow' := Nat.mul_le_mul_right (scales q i).1 hlow
    rw [Interval.hits, hhigh, Nat.succ_mul, Nat.add_mul]
    split <;> simp only [Bool.and_eq_true, decide_eq_true_eq] <;> omega
  rw [heq, hhit]
  split
  · exact ⟨_, rfl⟩
  · exact ⟨_, rfl⟩

/-- The search finds what is on one of the grids, the first one that has something. -/
theorem scan_spec {v : Interval} {q : Int} {fuel : Nat} {i : Int} {k : Nat} (hk : k < fuel)
    (hfound : ∃ d, candidate? v q (i - k) = some d) :
    candidate? v q (scan v q fuel i).2 = some (scan v q fuel i).1 := by
  -- The grid that has something is `k` steps away, and one step nearer with each turn.
  induction fuel generalizing i k with
  | zero => exact absurd hk (Nat.not_lt_zero k)
  | succ fuel ih =>
    rw [scan]
    split
    · rename_i d hd
      exact hd
    · rename_i hnone
      cases k with
      | zero =>
        obtain ⟨d, hd⟩ := hfound
        rw [Nat.cast_zero, Int.sub_zero, hnone] at hd
        cases hd
      | succ k =>
        refine ih (Nat.lt_of_succ_lt_succ hk) ?_
        rwa [Nat.cast_succ, add_comm, ← Int.sub_sub] at hfound

open Binary64 in
/-- The finest grid has seventeen digits or more. -/
theorem ten_zpow_gridAbove_lt {m : Nat} {q : Int} (hm : IsCanonical m q) :
    2 * (10 : ℚ) ^ (gridAbove m q - 23) < 2 ^ q := by
  have hlog : m.log2 < 53 := (Nat.log2_lt hm.pos.ne').2 hm.lt
  have hlow : -1074 ≤ q := hm.low
  have hhigh := hm.high
  unfold gridAbove
  generalize hs : (m.log2 : Int) + q + 1 = s
  obtain ⟨k, hk⟩ : ∃ k, s * 30103 / 100000 = k := ⟨_, rfl⟩
  -- The finest grid is `10 ^ k` over `10 ^ 21`, and `10 ^ k` is at most `2 ^ 66` units.
  have hpower : (10 : ℚ) ^ k ≤ 2 ^ (q + 66) := ten_zpow_le_two_zpow (by omega)
  have hten : (10 : ℚ) ^ (k + 2 - 23) = 10 ^ k / 10 ^ 21 := by
    rw [add_sub_assoc, zpow_add₀ (by norm_num), div_eq_mul_inv]
    norm_num
  have htwo : (2 : ℚ) ^ (q + 66) = 2 ^ q * 2 ^ 66 := zpow_add₀ two_ne_zero q 66
  have hpos : (0 : ℚ) < 2 ^ q := by positivity
  rw [hk, hten]
  rw [htwo] at hpower
  rw [mul_div_assoc', div_lt_iff₀ (by positivity)]
  linarith

/-- The shortest decimal of a float lies in the interval around it. -/
theorem contains_shortest {m : Nat} {q : Int} (hm : Binary64.IsCanonical m q) :
    (Interval.around m q).Contains
      (4 * ((shortest m q).1 * 10 ^ (shortest m q).2 / 2 ^ q)) := by
  have hlow : (Interval.around m q).low ≤ (Interval.around m q).value := Nat.sub_le _ _
  refine contains_of_candidate? (scan_spec (k := 23) (by decide) ?_)
  exact exists_candidate? hlow rfl (ten_zpow_gridAbove_lt hm)

/-! ## Reading a decimal -/

open Binary64 in
/-- What lies in the interval around a float is neither too small nor too large for one. -/
theorem Interval.bounds_of_contains {m : Nat} {q : Int} {x : ℚ} (hm : IsCanonical m q)
    (h : (around m q).Contains (4 * (x / 2 ^ q))) : 2 ^ (-1075 : Int) ≤ x ∧ x < 2 ^ (1024 : Int) := by
  obtain ⟨⟨hlow, hhigh⟩, -⟩ := roundsTo_of_contains hm.pos h
  have hone : (1 : ℚ) ≤ m := by exact_mod_cast hm.pos
  have hlt : (m : ℚ) + 1 ≤ 2 ^ 53 := by exact_mod_cast hm.lt
  have hscale : (0 : ℚ) < 2 ^ q := by positivity
  rw [le_div_iff₀ hscale] at hlow
  rw [div_le_iff₀ hscale] at hhigh
  constructor
  · calc (2 : ℚ) ^ (-1075 : Int) = 1 / 2 * 2 ^ (-1074 : Int) := by
          rw [show (-1075 : Int) = -1 + -1074 by rfl, zpow_add₀ two_ne_zero]
          norm_num
      _ ≤ (m - 1 / 2) * 2 ^ q := by
        have hq : (2 : ℚ) ^ (-1074 : Int) ≤ 2 ^ q := zpow_le_zpow_right₀ one_le_two hm.low
        exact mul_le_mul (by linarith) hq (by positivity) (by linarith)
      _ ≤ x := hlow
  · calc x ≤ (m + 1 / 2) * 2 ^ q := hhigh
      _ < 2 ^ 53 * 2 ^ q := mul_lt_mul_of_pos_right (by linarith) hscale
      _ ≤ 2 ^ 53 * 2 ^ (971 : Int) := by
        gcongr
        · exact one_le_two
        · exact hm.high
      _ = 2 ^ (1024 : Int) := (zpow_add₀ two_ne_zero 53 971).symm

/-- A decimal of moderate size is not cut off. -/
theorem nearestDecimal_eq {d : Nat} {i : Int} (hd : d ≠ 0)
    (hlow : 2 ^ (-1075 : Int) ≤ (d * 10 ^ i : ℚ)) (hhigh : (d * 10 ^ i : ℚ) < 2 ^ (1024 : Int)) :
    nearestDecimal d i =
      if 0 ≤ i then nearest (d * tenPow i.toNat) 1 else nearest d (tenPow (-i).toNat) := by
  have hten : (10 : ℚ) ≠ 0 := by norm_num
  have hpos : (0 : ℚ) < 10 ^ i := by positivity
  have hlog₁ : (2 : ℚ) ^ (d.log2 : Int) ≤ d := by
    rw [zpow_natCast]
    exact_mod_cast Nat.log2_self_le hd
  have hlog₂ : (d : ℚ) < 2 ^ ((d.log2 : Int) + 1) := by
    rw [← Nat.cast_succ, zpow_natCast]
    exact_mod_cast Nat.lt_log2_self
  have hsmall : ¬ 400 < (d.log2 : Int) * 3 / 10 + i := by
    intro h
    have hpower : (10 : ℚ) ^ ((d.log2 : Int) * 3 / 10) ≤ 2 ^ (d.log2 : Int) :=
      ten_zpow_le_two_zpow (.inl (by omega))
    have hbound : (2 : ℚ) ^ (1024 : Int) ≤ 10 ^ ((d.log2 : Int) * 3 / 10 + i) :=
      two_zpow_le_ten_zpow (.inl (by omega))
    rw [zpow_add₀ hten] at hbound
    have := mul_le_mul_of_nonneg_right (hpower.trans hlog₁) hpos.le
    linarith
  have hlarge : ¬ ((d.log2 : Int) + 1) * 31 / 100 + 1 + i < -400 := by
    intro h
    have hpower : (2 : ℚ) ^ ((d.log2 : Int) + 1) ≤ 10 ^ (((d.log2 : Int) + 1) * 31 / 100 + 1) :=
      two_zpow_le_ten_zpow (.inl (by omega))
    have hbound : (10 : ℚ) ^ (((d.log2 : Int) + 1) * 31 / 100 + 1 + i) ≤ 2 ^ (-1075 : Int) :=
      ten_zpow_le_two_zpow (.inr (by omega))
    rw [zpow_add₀ hten] at hbound
    have := mul_lt_mul_of_pos_right (hlog₂.trans_le hpower) hpos
    linarith
  have hd' : (d == 0) = false := beq_false_of_ne hd
  simp only [nearestDecimal, hd', Bool.false_eq_true, if_false, hsmall, hlarge]

open Binary64 in
/-- A decimal in the interval around a float is read as the float. -/
theorem nearestDecimal_of_contains {m d : Nat} {q i : Int} (hm : IsCanonical m q)
    (h : (Interval.around m q).Contains (4 * (d * 10 ^ i / 2 ^ q))) :
    nearestDecimal d i = Float.ofBits (UInt64.ofNat (bitsOf m q)) := by
  obtain ⟨hlow, hhigh⟩ := Interval.bounds_of_contains hm h
  have hd : d ≠ 0 := by
    rintro rfl
    rw [Nat.cast_zero, zero_mul] at hlow
    exact absurd hlow (not_le_of_gt (by positivity))
  rw [nearestDecimal_eq hd hlow hhigh]
  split
  · rename_i hi
    rw [nearest, nearestBits_of_contains hm one_ne_zero]
    obtain ⟨k, rfl⟩ := Int.eq_ofNat_of_zero_le hi
    rw [Int.toNat_natCast, Nat.cast_mul, cast_tenPow, Nat.cast_one, div_one]
    rwa [zpow_natCast] at h
  · rename_i hi
    have hden : tenPow (-i).toNat ≠ 0 := (Nat.pow_pos (by decide)).ne'
    rw [nearest, nearestBits_of_contains hm hden]
    obtain ⟨k, rfl⟩ : ∃ k : Nat, i = -k := ⟨(-i).toNat, by omega⟩
    rw [neg_neg, Int.toNat_natCast, cast_tenPow]
    rwa [zpow_neg, zpow_natCast, ← div_eq_mul_inv] at h

end LuaUnpack.Decimal
