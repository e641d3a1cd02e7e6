import CostBasis.Proofs.Binary64.Rounding
import CostBasis.Proofs.Decimal.Number

/-!
# The binary number of a decimal

A decimal is converted in two parts that are added, and the sum is rounded back to the places of the
decimal.  Each step has its own error, but for a decimal of fifteen digits all of them together are
less than half a unit of its last place.  So the coefficient is found again, and the result is the
binary number nearest to the decimal.

Main statements: `pow_ten`, `magnitudeToBinary64_eq`, `magnitudeToBinary64_of_whole`.
-/

namespace CostBasis

namespace Rounding

/-- An integer is the floor of the numbers from it to the next one. -/
theorem floor_eq {q : ℚ} {n : ℤ} (hlow : n ≤ q) (hhigh : q < n + 1) : q.floor = n := by
  have hle := Rat.le_floor_iff.mpr hlow
  have hlt := Rat.floor_lt_iff.mpr (show q < ((n + 1 : ℤ) : ℚ) by exact_mod_cast hhigh)
  omega

/-- An integer is what a number is rounded to if it is less than a half away.  There is no tie then,
so this holds of either rule of rounding. -/
theorem halfAway_eq {q : ℚ} {n : ℤ} (hq : 0 ≤ q) (h : |q - n| < 1 / 2) : halfAway q = n := by
  obtain ⟨hlow, hhigh⟩ := abs_lt.mp h
  rw [halfAway, if_neg (not_lt.mpr hq)]
  exact floor_eq (by linarith) (by linarith)

end Rounding

namespace Binary64

variable {a b n : ℕ} {q x δ : ℚ}

/-! ## Errors in a row -/

/-- A rounding adds its own error to the one that is there.  Both are relative to the number, so
they can be chained. -/
theorem abs_round_sub_le_of_near (hq : IsNormal q) (h : |q - x| ≤ δ * x) :
    |round q - x| ≤ (δ + roundoff * (1 + δ)) * x := by
  have hroundoff := roundoff_pos
  have hround := abs_round_sub_le hq
  have hle : q ≤ x + δ * x := by linarith [le_of_abs_le h]
  calc |round q - x| ≤ |round q - q| + |q - x| := abs_sub_le _ _ _
    _ ≤ roundoff * (x + δ * x) + δ * x := by gcongr; exact hround.trans (by gcongr)
    _ = (δ + roundoff * (1 + δ)) * x := by ring

/-! ## Powers of ten -/

/-- Repeated squaring meets small powers of ten only, and these are not rounded.  The invariant is
that result and base are such powers, and that their product would be the one that is looked for. -/
theorem powLoop_ten {fuel : ℕ} (hfuel : n < fuel) (h : a + b * n ≤ 22) :
    powLoop fuel (10 ^ a) (10 ^ b) n = 10 ^ (a + b * n) := by
  have hmul {i j : ℕ} (hij : i + j ≤ 22) : mul (10 ^ i) (10 ^ j) = 10 ^ (i + j) := by
    rw [mul, ← pow_add, round_ten_pow hij]
  induction fuel generalizing a b n with
  | zero => omega
  | succ fuel ih =>
      have hbit : (if n % 2 = 1 then mul (10 ^ a) (10 ^ b) else 10 ^ a) =
          (10 : ℚ) ^ (a + b * (n % 2)) := by
        have hle : b * (n % 2) ≤ b * n := Nat.mul_le_mul_left b (Nat.mod_le n 2)
        split
        · next hodd =>
            rw [hodd, mul_one] at hle ⊢
            exact hmul (by omega)
        · next heven =>
            rw [Nat.mod_two_ne_one.mp heven, mul_zero, add_zero]
      have hn : b * n = b * (n % 2) + b * 2 * (n / 2) := by
        rw [mul_assoc, ← mul_add, Nat.mod_add_div]
      rw [powLoop, hbit]
      split
      · next hlast => rw [hn, hlast, mul_zero, add_zero]
      · next hmore =>
          have hdouble : b * 2 ≤ b * 2 * (n / 2) :=
            Nat.le_mul_of_pos_right _ (Nat.pos_of_ne_zero hmore)
          rw [hmul (by omega), ← mul_two, ih (by omega) (by omega), hn, add_assoc]

/-- **The powers of ten that a decimal needs** are found exactly. -/
theorem pow_ten (hn : n ≤ 22) : pow 10 n = 10 ^ n := by
  have h := powLoop_ten (a := 0) (b := 1) (Nat.lt_succ_self n) (by omega)
  rwa [pow_zero, pow_one, zero_add, one_mul] at h

/-! ## The parts of a decimal -/

/-- A number that was rounded is half of what it was at least. -/
theorem half_le_of_near (hx : 0 ≤ x) (h : |q - x| ≤ δ * x) (hδ : δ ≤ 1 / 2) : x / 2 ≤ q := by
  have hlow := neg_le_of_abs_le h
  have hle := mul_le_mul_of_nonneg_right hδ hx
  linarith

/-- The places of a decimal are no smaller than one in the last of them. -/
theorem le_part_div {part scale : ℕ} (hscale : scale ≤ 22) (hpart : part ≠ 0) :
    1 / 10 ^ 22 ≤ (part : ℚ) / 10 ^ scale := by
  have hone : (1 : ℚ) ≤ part := by exact_mod_cast Nat.one_le_iff_ne_zero.mpr hpart
  gcongr
  norm_num

/-- The rounded places are near to the places, and not zero. -/
theorem near_part_div {part scale : ℕ} (hscale : scale ≤ 22) (hpart : part ≠ 0) :
    |div part (10 ^ scale) - part / 10 ^ scale| ≤ roundoff * (part / 10 ^ scale) ∧
      (part / 10 ^ scale : ℚ) / 2 ≤ div part (10 ^ scale) := by
  have hnear := abs_round_sub_le
    (isNormal_of_le (le_trans (by norm_num) (le_part_div hscale hpart)))
  exact ⟨hnear, half_le_of_near (by positivity) hnear (roundoff_le.trans (by norm_num))⟩

/-- **The coefficient is found again** when the rounded sum of the parts is shifted.  Four roundings
come before it, and each adds an error of its own; together they are less than half a unit, since
the coefficient has fifteen digits and a binary number nearly sixteen. -/
theorem halfAway_shifted {whole part scale : ℕ} (hscale : scale ≤ 22) (hpart : part ≠ 0)
    (hcoeff : whole * 10 ^ scale + part < 10 ^ 15) :
    Rounding.halfAway (mul (round (whole + div part (10 ^ scale))) (10 ^ scale)) =
      (whole * 10 ^ scale + part : ℕ) := by
  have hpow : (0 : ℚ) < 10 ^ scale := by positivity
  have hwhole : (0 : ℚ) ≤ whole := Nat.cast_nonneg _
  have hlow := le_part_div hscale hpart
  obtain ⟨hfraction, hhalf⟩ := near_part_div hscale hpart
  have hsum : (whole + part / 10 ^ scale) * 10 ^ scale =
      ((whole * 10 ^ scale + part : ℕ) : ℚ) := by
    push_cast
    rw [add_mul, div_mul_cancel₀ _ hpow.ne']
  generalize (part : ℚ) / 10 ^ scale = x at *
  generalize div part (10 ^ scale) = fraction at *
  have hcoeff : (whole + x) * 10 ^ scale < 10 ^ 15 := by
    rw [hsum]
    exact_mod_cast hcoeff
  have hone : 1 ≤ (whole + x) * 10 ^ scale := by
    rw [hsum]
    exact_mod_cast (by omega : 1 ≤ whole * 10 ^ scale + part)
  have hroundoff := roundoff_pos
  have hsmall := roundoff_le
  -- The sum is as near as the places were, and is rounded once more;
  have hadd : |whole + fraction - (whole + x)| ≤ roundoff * (whole + x) := by
    rw [add_sub_add_left_eq_sub]
    exact hfraction.trans (by gcongr; linarith)
  have hround := abs_round_sub_le_of_near (isNormal_of_le (by linarith)) hadd
  -- so is the product.
  have hshift : |round (whole + fraction) * 10 ^ scale - (whole + x) * 10 ^ scale| ≤
      (roundoff + roundoff * (1 + roundoff)) * ((whole + x) * 10 ^ scale) := by
    rw [← sub_mul, abs_mul, abs_of_pos hpow, ← mul_assoc]
    gcongr
  have hδ : roundoff + roundoff * (1 + roundoff) ≤ 5 / (18 * 10 ^ 15) := by nlinarith
  generalize roundoff + roundoff * (1 + roundoff) = δ at hshift hδ
  have hhalf := half_le_of_near (by linarith) hshift (hδ.trans (by norm_num))
  have hproduct := abs_round_sub_le_of_near (isNormal_of_le (by linarith)) hshift
  have hδ' : δ + roundoff * (1 + δ) ≤ 4 / (9 * 10 ^ 15) := by nlinarith
  rw [hsum] at hproduct hcoeff
  refine Rounding.halfAway_eq ?_ ?_
  · exact le_trans (by positivity)
      (half_le_of_near (Nat.cast_nonneg _) hproduct (hδ'.trans (by norm_num)))
  · rw [Int.cast_natCast]
    calc |mul (round (whole + fraction)) (10 ^ scale) - (whole * 10 ^ scale + part : ℕ)|
      _ ≤ (δ + roundoff * (1 + δ)) * (whole * 10 ^ scale + part : ℕ) := hproduct
      _ ≤ 4 / (9 * 10 ^ 15) * 10 ^ 15 := by gcongr
      _ < 1 / 2 := by norm_num

end Binary64

namespace Decimal

open Binary64

variable {d : Decimal}

/-- The number without its sign, in the two parts that are converted one by one: what is before the
point, and what is behind it. -/
theorem abs_toRat_eq (d : Decimal) :
    |d.toRat| = (d.coeff.natAbs / 10 ^ d.scale : ℕ) +
      (d.coeff.natAbs % 10 ^ d.scale : ℕ) / 10 ^ d.scale := by
  have hpow := d.pow_scale_pos
  have hparts : ((10 ^ d.scale * (d.coeff.natAbs / 10 ^ d.scale) +
      d.coeff.natAbs % 10 ^ d.scale : ℕ) : ℚ) = d.coeff.natAbs := by
    rw [Nat.div_add_mod]
  push_cast at hparts
  rw [toRat_eq_div, abs_div, abs_of_pos hpow, div_eq_iff hpow.ne', ← Int.cast_abs,
    ← Nat.cast_natAbs,
    ← hparts, add_mul, div_mul_cancel₀ _ hpow.ne', mul_comm]

/-- The magnitude of a decimal is no negative number after its roundings either. -/
theorem magnitudeToBinary64_nonneg (d : Decimal) : 0 ≤ d.magnitudeToBinary64 := by
  unfold magnitudeToBinary64
  simp only
  split_ifs
  · exact round_nonneg _
  · exact round_nonneg _

/-- **The binary number of a decimal of fifteen digits** is the one nearest to it.  What is divided
last is the coefficient itself, so that only the last rounding is left. -/
theorem magnitudeToBinary64_eq (hcoeff : d.coeff.natAbs < 10 ^ 15) (hscale : d.scale ≤ 22) :
    d.magnitudeToBinary64 = Binary64.round |d.toRat| := by
  have hwhole : Binary64.round (d.coeff.natAbs / 10 ^ d.scale : ℕ) =
      (d.coeff.natAbs / 10 ^ d.scale : ℕ) :=
    round_natCast (((Nat.div_le_self _ _).trans_lt hcoeff).trans (by decide))
  have hpart : Binary64.round (d.coeff.natAbs % 10 ^ d.scale : ℕ) =
      (d.coeff.natAbs % 10 ^ d.scale : ℕ) :=
    round_natCast (((Nat.mod_le _ _).trans_lt hcoeff).trans (by decide))
  have hunit : Binary64.round ((10 ^ d.scale : ℕ) : ℚ) = 10 ^ d.scale := by
    rw [Nat.cast_pow, Nat.cast_ofNat, round_ten_pow hscale]
  unfold magnitudeToBinary64
  simp only [Nat.pow_eq, hwhole, hpart, hunit, pow_ten hscale]
  by_cases hfraction : d.coeff.natAbs % 10 ^ d.scale = 0
  · rw [abs_toRat_eq, hfraction, Nat.cast_zero, Binary64.div, zero_div, round_zero, add_zero,
      hwhole]
    exact if_pos rfl
  · have hpos : 0 < Binary64.div (d.coeff.natAbs % 10 ^ d.scale : ℕ) (10 ^ d.scale) := by
      have hlow := le_part_div hscale hfraction
      exact (half_pos (lt_of_lt_of_le (by norm_num) hlow)).trans_le
        (near_part_div hscale hfraction).2
    rw [if_neg hpos.ne', halfAway_shifted hscale hfraction (by rwa [Nat.div_add_mod']),
      Nat.div_add_mod', Binary64.div, toRat_eq_div, abs_div, abs_of_pos d.pow_scale_pos,
      ← Int.cast_abs, Int.abs_eq_natAbs]

/-- A whole number has no places that could be lost, however many zeros it is held with. -/
theorem magnitudeToBinary64_of_whole (hwhole : d.coeff.natAbs % 10 ^ d.scale = 0) :
    d.magnitudeToBinary64 = Binary64.round |d.toRat| := by
  unfold magnitudeToBinary64
  simp only [Nat.pow_eq, hwhole, Nat.cast_zero, round_zero, Binary64.div, zero_div, if_pos]
  rw [abs_toRat_eq, hwhole, Nat.cast_zero, zero_div, add_zero]

end Decimal

end CostBasis
