import CostBasis.Binary64
import CostBasis.Proofs.Decimal.Grid

/-!
# The error of binary rounding

A number is rounded to a multiple of a power of two that has 53 binary digits.  Where the grid is
not cut off at its small end, the error is at most `2 ^ -53` of the number, and of the rounded
number as well.  A number that has 53 binary digits is not rounded at all.

Main statements: `binade_eq_log`, `abs_round_sub_le`, `round_eq_self`.
-/

namespace CostBasis.Binary64

open Rounding (halfEven halfEven_intCast abs_halfEven_sub_le)

variable {q : ℚ} {e : ℤ} {n : ℕ}

/-! ## Powers with an exponent of either sign -/

/-- A power with an exponent of either sign, as it is calculated: a natural number, or one over a
natural number. -/
theorem pow_toNat_eq_zpow (b : ℕ) (e : ℤ) :
    (if 0 ≤ e then ((Nat.pow b e.toNat : ℕ) : ℚ) else mkRat 1 (Nat.pow b (-e).toNat)) =
      (b : ℚ) ^ e := by
  split
  · next h =>
      obtain ⟨n, rfl⟩ := Int.eq_ofNat_of_zero_le h
      rw [Int.toNat_natCast, zpow_natCast, Nat.pow_eq, Nat.cast_pow]
  · next h =>
      obtain ⟨n, hn⟩ := Int.eq_ofNat_of_zero_le (neg_nonneg.mpr (not_le.mp h).le)
      obtain rfl : e = -(n : ℤ) := by omega
      rw [neg_neg, Int.toNat_natCast, zpow_neg, zpow_natCast, Rat.mkRat_eq_div, Nat.pow_eq,
        Nat.cast_pow, Int.cast_one, one_div]

/-- The powers of two that are calculated are those of arithmetic. -/
theorem twoPow_eq (e : ℤ) : twoPow e = 2 ^ e := pow_toNat_eq_zpow 2 e

/-- The powers of ten that are calculated are those of arithmetic. -/
theorem tenPow_eq (e : ℤ) : tenPow e = 10 ^ e := pow_toNat_eq_zpow 10 e

/-- The power at or below a number is known by its neighbours. -/
theorem log_eq {b : ℕ} (hb : 1 < b) (hlow : (b : ℚ) ^ e ≤ q) (hhigh : q < (b : ℚ) ^ (e + 1)) :
    Int.log b q = e := by
  have hq : 0 < q := lt_of_lt_of_le (zpow_pos (by positivity) e) hlow
  have hle := (Int.zpow_le_iff_le_log hb hq).mp hlow
  have hlt := (Int.lt_zpow_iff_log_lt hb hq).mp hhigh
  omega

/-- **The binade** is the exponent of the power of two at or below a number.  The guess from the
lengths of numerator and denominator is right or one too high, and then it is corrected. -/
theorem binade_eq_log (hq : 0 < q) : binade q = Int.log 2 q := by
  have hnum : (q.num.natAbs : ℚ) = q.num := by
    have hnonneg : 0 ≤ q.num := (Rat.num_pos.mpr hq).le
    rw [Nat.cast_natAbs, abs_of_nonneg hnonneg]
  have hden : (0 : ℚ) < q.den := by exact_mod_cast q.den_pos
  have hratio : q * q.den = q.num.natAbs := by
    rw [hnum, Rat.mul_den_eq_num]
  -- The numerator and the denominator lie between two powers of two each.
  have hnlow : (2 : ℚ) ^ q.num.natAbs.log2 ≤ q.num.natAbs := by
    exact_mod_cast Nat.log2_self_le (Int.natAbs_ne_zero.mpr (Rat.num_pos.mpr hq).ne')
  have hnhigh : (q.num.natAbs : ℚ) < 2 ^ (q.num.natAbs.log2 + 1) := by
    exact_mod_cast Nat.lt_log2_self
  have hdlow : (2 : ℚ) ^ q.den.log2 ≤ q.den := by
    exact_mod_cast Nat.log2_self_le q.den_nz
  have hdhigh : (q.den : ℚ) < 2 ^ (q.den.log2 + 1) := by
    exact_mod_cast Nat.lt_log2_self
  have hsplit (i j : ℕ) : (2 : ℚ) ^ ((i : ℤ) - j) * 2 ^ j = 2 ^ i := by
    rw [← zpow_natCast, ← zpow_natCast, ← zpow_add₀ two_ne_zero, sub_add_cancel]
  rw [← hratio] at hnlow hnhigh
  unfold binade
  simp only [twoPow_eq]
  generalize q.num.natAbs.log2 = i at *
  generalize q.den.log2 = j at *
  have hpow : (0 : ℚ) < 2 ^ ((i : ℤ) - j) := zpow_pos two_pos _
  have hhigh : q < 2 ^ ((i : ℤ) - j + 1) := by
    rw [zpow_add_one₀ two_ne_zero]
    refine lt_of_mul_lt_mul_right ?_ hden.le
    calc q * q.den < 2 ^ (i + 1) := hnhigh
      _ = 2 ^ ((i : ℤ) - j) * 2 * 2 ^ j := by rw [pow_succ, ← hsplit i j]; ring
      _ ≤ 2 ^ ((i : ℤ) - j) * 2 * q.den := by gcongr
  have hlow : 2 ^ ((i : ℤ) - j - 1) ≤ q := by
    rw [zpow_sub_one₀ two_ne_zero]
    refine le_of_mul_le_mul_right ?_ hden
    calc (2 : ℚ) ^ ((i : ℤ) - j) * 2⁻¹ * q.den
      _ ≤ 2 ^ ((i : ℤ) - j) * 2⁻¹ * 2 ^ (j + 1) := by gcongr
      _ = 2 ^ i := by rw [pow_succ, ← hsplit i j]; ring
      _ ≤ q * q.den := hnlow
  split
  · next h => exact (log_eq (b := 2) (by decide) hlow (by rwa [sub_add_cancel])).symm
  · next h => exact (log_eq (b := 2) (by decide) (not_lt.mp h) hhigh).symm

/-- The power of two of a binade is at or below its numbers. -/
theorem twoPow_binade_le (hq : 0 < q) : 2 ^ binade q ≤ q := by
  rw [binade_eq_log hq]
  exact Int.zpow_log_le_self (by decide) hq

/-! ## Rounding -/

/-- An integer is not passed by rounding, so what is above it stays there. -/
theorem le_halfEven {n : ℤ} (h : (n : ℚ) ≤ q) : n ≤ halfEven q := by
  have herror := neg_le_of_abs_le (abs_halfEven_sub_le q)
  have hlt : ((n - 1 : ℤ) : ℚ) < halfEven q := by
    push_cast
    linarith
  have := Int.cast_lt.mp hlt
  omega

/-- A number at which the grid has all its 53 binary digits. -/
def IsNormal (q : ℚ) : Prop := 2 ^ (-1022 : ℤ) ≤ q

/-- A number at which the grid has all its digits is positive. -/
theorem IsNormal.pos (h : IsNormal q) : 0 < q := lt_of_lt_of_le (zpow_pos two_pos _) h

/-- Such a number lies in one of the binades that are not cut off. -/
theorem IsNormal.le_binade (h : IsNormal q) : -1022 ≤ binade q := by
  rw [binade_eq_log h.pos]
  exact (Int.zpow_le_iff_le_log (b := 2) (by decide) h.pos).mp h

/-- The decimals that are held are far from the small end of the grid. -/
theorem isNormal_of_le (h : 1 / 10 ^ 40 ≤ q) : IsNormal q := by
  refine le_trans ?_ h
  calc (2 : ℚ) ^ (-1022 : ℤ) ≤ 2 ^ (-160 : ℤ) := zpow_le_zpow_right₀ one_le_two (by decide)
    _ ≤ 1 / 10 ^ 40 := by norm_num

/-- Zero is not rounded. -/
theorem round_zero : round 0 = 0 := if_pos le_rfl

/-- A positive number is rounded to a multiple of the step of the grid at its binade. -/
theorem round_of_pos (hq : 0 < q) :
    round q = halfEven (q / 2 ^ max (binade q - 52) (-1074)) * 2 ^ max (binade q - 52) (-1074) := by
  rw [round, if_neg (not_le.mpr hq)]
  simp only [twoPow_eq]

/-- Nothing is rounded below zero, neither in the normal range nor out of it. -/
theorem round_nonneg (q : ℚ) : 0 ≤ round q := by
  rcases le_or_gt q 0 with hq | hq
  · rw [round, if_pos hq]
  · have hstep : (0 : ℚ) < 2 ^ max (binade q - 52) (-1074) := zpow_pos two_pos _
    have hquotient := div_nonneg hq.le hstep.le
    rw [round_of_pos hq]
    exact mul_nonneg (Int.cast_nonneg (le_halfEven (by rwa [Int.cast_zero]))) hstep.le

/-- Where the grid has all its digits its step is 52 binary places below the binade. -/
theorem round_of_isNormal (h : IsNormal q) :
    round q = halfEven (q / 2 ^ (binade q - 52)) * 2 ^ (binade q - 52) := by
  have hmax : max (binade q - 52) (-1074) = binade q - 52 := by
    have := h.le_binade
    omega
  rw [round_of_pos h.pos, hmax]

/-- The error is at most half of the step of the grid, which has 53 binary digits within the binade
of the number. -/
theorem abs_round_sub_le_zpow (h : IsNormal q) : |round q - q| ≤ 2 ^ (binade q - 53) := by
  have hstep : (0 : ℚ) < 2 ^ (binade q - 52) := zpow_pos two_pos _
  have hhalf : (2 : ℚ) ^ (binade q - 53) = 1 / 2 * 2 ^ (binade q - 52) := by
    rw [show binade q - 52 = binade q - 53 + 1 by ring, zpow_add_one₀ two_ne_zero]
    ring
  have hscale : round q - q =
      (halfEven (q / 2 ^ (binade q - 52)) - q / 2 ^ (binade q - 52)) * 2 ^ (binade q - 52) := by
    rw [round_of_isNormal h, sub_mul, div_mul_cancel₀ _ hstep.ne']
  rw [hscale, abs_mul, abs_of_pos hstep, hhalf]
  exact mul_le_mul_of_nonneg_right (abs_halfEven_sub_le _) hstep.le

/-- A number is rounded within its binade, as the ends of the binade are on the grid. -/
theorem twoPow_binade_le_round (h : IsNormal q) : 2 ^ binade q ≤ round q := by
  have hstep : (0 : ℚ) < 2 ^ (binade q - 52) := zpow_pos two_pos _
  have hsplit : (2 : ℚ) ^ binade q = ((2 ^ 52 : ℤ) : ℚ) * 2 ^ (binade q - 52) := by
    rw [zpow_sub₀ two_ne_zero]
    norm_num
    ring
  have hle : ((2 ^ 52 : ℤ) : ℚ) ≤ q / 2 ^ (binade q - 52) := by
    rw [le_div_iff₀ hstep, ← hsplit]
    exact twoPow_binade_le h.pos
  rw [round_of_isNormal h, hsplit]
  exact mul_le_mul_of_nonneg_right (Int.cast_le.mpr (le_halfEven hle)) hstep.le

/-- A number that is far from the small end of the grid is not rounded to zero. -/
theorem round_pos (h : IsNormal q) : 0 < round q :=
  lt_of_lt_of_le (zpow_pos two_pos _) (twoPow_binade_le_round h)

/-- The relative error of rounding. -/
def roundoff : ℚ := 2 ^ (-53 : ℤ)

/-- The relative error is not zero. -/
theorem roundoff_pos : 0 < roundoff := zpow_pos two_pos (-53)

/-- The relative error is less than one in nine times `10 ^ 15`: a binary number has nearly sixteen
decimal digits. -/
theorem roundoff_le : roundoff ≤ 1 / (9 * 10 ^ 15) := by
  rw [roundoff]
  norm_num

/-- **The error of rounding** is a small part of the number. -/
theorem abs_round_sub_le (h : IsNormal q) : |round q - q| ≤ roundoff * q := by
  refine (abs_round_sub_le_zpow h).trans ?_
  rw [roundoff, sub_eq_neg_add, zpow_add₀ two_ne_zero]
  exact mul_le_mul_of_nonneg_left (twoPow_binade_le h.pos) (zpow_nonneg zero_le_two _)

/-- The error is as small a part of the rounded number. -/
theorem abs_round_sub_le_round (h : IsNormal q) : |round q - q| ≤ roundoff * round q := by
  refine (abs_round_sub_le_zpow h).trans ?_
  rw [roundoff, sub_eq_neg_add, zpow_add₀ two_ne_zero]
  exact mul_le_mul_of_nonneg_left (twoPow_binade_le_round h) (zpow_nonneg zero_le_two _)

/-- **A number of 53 binary digits is not rounded.**  It is a multiple of the step of the grid at
its binade, however many zeros it ends in. -/
theorem round_eq_self (hn : n < 2 ^ 53) (he : -1074 ≤ e) : round (n * 2 ^ e) = n * 2 ^ e := by
  rcases Nat.eq_zero_or_pos n with rfl | hpos
  · rw [Nat.cast_zero, zero_mul, round_zero]
  · have hq : (0 : ℚ) < n * 2 ^ e := mul_pos (by exact_mod_cast hpos) (zpow_pos two_pos e)
    have hbinade : binade (n * 2 ^ e : ℚ) < e + 53 := by
      rw [binade_eq_log hq, ← Int.lt_zpow_iff_log_lt (b := 2) (by decide) hq, Nat.cast_ofNat,
        add_comm, zpow_add₀ two_ne_zero]
      exact mul_lt_mul_of_pos_right (by exact_mod_cast hn) (zpow_pos two_pos e)
    rw [round_of_pos hq]
    generalize hstep : max (binade (n * 2 ^ e : ℚ) - 52) (-1074) = step
    -- The number is a multiple of the step.
    obtain ⟨k, hk⟩ := Int.eq_ofNat_of_zero_le (show 0 ≤ e - step by omega)
    have hmultiple : (n : ℚ) * 2 ^ e / 2 ^ step = ((n * 2 ^ k : ℤ) : ℚ) := by
      rw [mul_div_assoc, ← zpow_sub₀ two_ne_zero, hk]
      push_cast
      rfl
    rw [hmultiple, halfEven_intCast, ← hmultiple]
    exact div_mul_cancel₀ _ (zpow_pos two_pos step).ne'

/-- An integer of 53 binary digits is not rounded. -/
theorem round_natCast (hn : n < 2 ^ 53) : round n = n := by
  have h := round_eq_self (e := 0) hn (by decide)
  rwa [zpow_zero, mul_one] at h

/-- **Small powers of ten are not rounded**: up to `10 ^ 22` the odd part, which is a power of five,
has 53 binary digits. -/
theorem round_ten_pow (hn : n ≤ 22) : round (10 ^ n) = 10 ^ n := by
  have hsplit : (10 : ℚ) ^ n = ((5 ^ n : ℕ) : ℚ) * 2 ^ (n : ℤ) := by
    rw [zpow_natCast, Nat.cast_pow, ← mul_pow]
    norm_num
  have hlt : 5 ^ n < 2 ^ 53 := lt_of_le_of_lt (Nat.pow_le_pow_right (by decide) hn) (by decide)
  rw [hsplit, round_eq_self hlt (by omega)]

end CostBasis.Binary64
