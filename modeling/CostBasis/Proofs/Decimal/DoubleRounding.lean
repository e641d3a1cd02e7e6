import CostBasis.Proofs.Decimal.TrailingZeros

/-!
# Rounding once and rounding twice

To round to a fine grid first and then to a coarse one is not always the same as to round to the
coarse one at once.  The point of the fine grid may lie half-way between two points of the coarse
grid where the number itself did not; then the second rounding no longer knows on which side the
number was.  Nothing else can go wrong.

A quotient of decimals is rounded at the finest scale that has room for it.  If it is then rounded
to a given number of places, this is what happens to it.

Main statements: `nearest_nearest`, `exists_roundedTwice_of_div?`.
-/

namespace CostBasis

namespace Rounding

variable {q r : ℚ} {places more : ℕ}

/-! ## The nearest point of a grid -/

/-- The number lies half-way between two neighbours of `places` places. -/
def Halfway (places : ℕ) (q : ℚ) : Prop := ∃ n : ℤ, q * 10 ^ places = n + 1 / 2

/-- A number with these places that is less than half a unit away is the nearest one.  There is no
tie to settle then. -/
theorem nearest_eq_of_lt (hgrid : OnGrid places r) (h : |r - q| < 1 / 2 / 10 ^ places) :
    nearest q places = r := by
  have hpos : (0 : ℚ) < 10 ^ places := by positivity
  obtain ⟨n, hn⟩ := hgrid
  have hunits : |(n : ℚ) - q * 10 ^ places| < 1 / 2 := by
    rw [← hn, ← sub_mul, abs_mul, abs_of_pos hpos]
    exact (lt_div_iff₀ hpos).mp h
  rw [nearest, halfEven_eq hunits.le fun hhalf => absurd hhalf hunits.ne, ← hn,
    mul_div_cancel_right₀ _ hpos.ne']

/-- Only a number that lies half-way is half a unit away from one with these places.  This turns a
distance, which is what the roundings are bounded by, into a statement about digits. -/
theorem halfway_of_abs_eq (hgrid : OnGrid places r) (h : |r - q| = 1 / 2 / 10 ^ places) :
    Halfway places q := by
  have hpos : (0 : ℚ) < 10 ^ places := by positivity
  obtain ⟨n, hn⟩ := hgrid
  have hunits : |(n : ℚ) - q * 10 ^ places| = 1 / 2 := by
    rw [← hn, ← sub_mul, abs_mul, abs_of_pos hpos, h, div_mul_cancel₀ _ hpos.ne']
  rcases (abs_eq (by norm_num)).mp hunits with habove | hbelow
  · refine ⟨n - 1, ?_⟩
    push_cast
    linarith
  · exact ⟨n, by linarith⟩

/-- What lies half-way between two neighbours has one place more. -/
theorem Halfway.onGrid (h : Halfway places q) : OnGrid (places + 1) q := by
  obtain ⟨n, hn⟩ := h
  refine ⟨10 * n + 5, ?_⟩
  push_cast
  rw [pow_succ, ← mul_assoc, hn]
  ring

/-- What lies half-way between two neighbours is none of them. -/
theorem Halfway.not_onGrid (h : Halfway places q) : ¬OnGrid places q := by
  obtain ⟨n, hn⟩ := h
  rintro ⟨m, hm⟩
  have htwice : (2 * m : ℚ) = 2 * n + 1 := by linarith
  have htwice : 2 * m = 2 * n + 1 := by exact_mod_cast htwice
  omega

/-! ## Rounding twice -/

/-- **Rounding twice is rounding once**, unless the first rounding has moved the number to a point
half-way between two neighbours. -/
theorem nearest_nearest (hle : places ≤ more)
    (h : Halfway places (nearest q more) → nearest q more = q) :
    nearest (nearest q more) places = nearest q places := by
  by_cases hhalf : Halfway places (nearest q more)
  · rw [h hhalf]
  generalize hr : nearest q more = r at hhalf ⊢
  have hgrid : OnGrid more r := hr ▸ onGrid_nearest q more
  have hfirst : |r - q| ≤ 1 / 2 / 10 ^ more := hr ▸ abs_nearest_sub_le q more
  rcases hle.lt_or_eq with hlt | rfl
  · have hunit : (0 : ℚ) < 1 / 10 ^ more := by positivity
    have hnear : |nearest r places - r| < 1 / 2 / 10 ^ places :=
      lt_of_le_of_ne (abs_nearest_sub_le r places) fun heq =>
        hhalf (halfway_of_abs_eq (onGrid_nearest r places) heq)
    -- The second rounding is shorter than half a unit by one point of the fine grid at least.
    have hstep : |nearest r places - r| + 1 / 10 ^ more ≤ 1 / 2 / 10 ^ places := by
      have hdistance : OnGrid more |nearest r places - r| := by
        have hsub := ((onGrid_nearest r places).mono hle).sub hgrid
        rcases abs_choice (nearest r places - r) with heq | heq
        · rwa [heq]
        · rw [heq]
          exact hsub.neg
      have hhalfUnit : OnGrid more (1 / 2 / 10 ^ places : ℚ) := by
        have hhalfway : Halfway places (1 / 2 / 10 ^ places : ℚ) :=
          ⟨0, by rw [div_mul_cancel₀ _ (by positivity), Int.cast_zero, zero_add]⟩
        exact hhalfway.onGrid.mono hlt
      by_contra! hgt
      exact hnear.not_ge (hhalfUnit.le_of_lt_add hdistance hgt)
    refine (nearest_eq_of_lt (onGrid_nearest r places) ?_).symm
    calc |nearest r places - q| ≤ |nearest r places - r| + |r - q| := abs_sub_le ..
      _ ≤ (1 / 2 / 10 ^ places - 1 / 10 ^ more) + 1 / 2 / 10 ^ more := by linarith
      _ < 1 / 2 / 10 ^ places := by
        have hhalfStep : (1 : ℚ) / 2 / 10 ^ more = 1 / 10 ^ more / 2 := by ring
        linarith
  · rw [nearest_eq_self hgrid, ← hr]

end Rounding

namespace Decimal

open Rounding

variable {q r : ℚ} {a b d : Decimal} {scale places : ℕ}

/-! ## The finest scale -/

/-- At this scale a number is representable after rounding, and at no finer one. -/
structure FinestScale (q : ℚ) (scale : ℕ) : Prop where
  le : scale ≤ maxScale
  inRange : |q| * 10 ^ scale + 1 / 2 < coeffBound
  finest : scale < maxScale → coeffBound ≤ |q| * 10 ^ (scale + 1) + 1 / 2

/-- A result is the exact one, rounded at the finest scale there is for it.  That scale is found by
trying one after the other, from 28 places down. -/
theorem exists_finestScale_of_fit (h : fit q maxScale = some d) :
    ∃ scale, FinestScale q scale ∧ d.toRat = nearest q scale := by
  have hzero : (roundAt? q 0).isSome = true := by
    rw [isSome_roundAt?_iff (Nat.zero_le _), pow_zero, mul_one]
    exact isSome_fit_iff.mp (Option.isSome_iff_exists.mpr ⟨d, h⟩)
  obtain ⟨d', scale, hfit, hround, -, hle, hnone⟩ := fit_eq_of_isSome (Nat.zero_le maxScale) hzero
  obtain rfl := Option.some.inj (h.symm.trans hfit)
  refine ⟨scale, ⟨hle, ?_, fun hlt => ?_⟩, (roundAt?_eq_some hround).2⟩
  · rw [← isSome_roundAt?_iff hle, hround]
    rfl
  · by_contra! hwide
    have := isSome_roundAt? (Nat.succ_le_of_lt hlt) hwide
    rw [hnone hlt] at this
    exact Bool.false_ne_true this

/-- A number that is representable when it is rounded to some places is less than `2 ^ 96` units of
the places that it then has. -/
theorem exists_scale_of_representable (h : Representable (nearest q places)) :
    ∃ s ≤ places, s ≤ maxScale ∧ OnGrid s (nearest q places) ∧
      |q| * 10 ^ s + 1 / 2 < coeffBound := by
  obtain ⟨c, hc⟩ := h
  have hpos : (0 : ℚ) < 10 ^ places := by positivity
  have hcoeff := hc ▸ c.abs_toRat_mul_le
  rcases le_or_gt places c.scale with hle | hlt
  · -- All the places are needed, and a number that rounds to less than an even bound is below it.
    refine ⟨places, le_rfl, hle.trans c.scale_le, onGrid_nearest q places, ?_⟩
    rw [← abs_of_pos hpos, ← abs_mul, ← natAbs_halfEven_lt_iff (by decide)]
    have hunits : |nearest q places| * 10 ^ places = |(halfEven (q * 10 ^ places) : ℚ)| := by
      rw [nearest, abs_div, abs_of_pos hpos, div_mul_cancel₀ _ hpos.ne']
    have hpow : (10 : ℚ) ^ places ≤ 10 ^ c.scale := pow_le_pow_right₀ (by norm_num) hle
    have hmono := mul_le_mul_of_nonneg_left hpow (abs_nonneg (nearest q places))
    have hbound : |(halfEven (q * 10 ^ places) : ℚ)| + 1 ≤ coeffBound := by linarith
    rw [← Int.cast_abs, ← Nat.cast_natAbs] at hbound
    exact_mod_cast hbound
  · -- Fewer places are enough, and of these the number is less than a tenth away.
    refine ⟨c.scale, hlt.le, c.scale_le, hc ▸ c.onGrid_toRat, ?_⟩
    have hnear : |q| ≤ |nearest q places| + 1 / 2 / 10 ^ places := by
      have htriangle := abs_sub_abs_le_abs_sub q (nearest q places)
      rw [abs_sub_comm] at htriangle
      have := abs_nearest_sub_le q places
      linarith
    have hpow : (10 : ℚ) ^ c.scale * 10 ≤ 10 ^ places := by
      rw [← pow_succ]
      exact pow_le_pow_right₀ (by norm_num) hlt
    have hsmall : (1 : ℚ) / 2 / 10 ^ places * 10 ^ c.scale ≤ 1 / 20 := by
      rw [div_mul_eq_mul_div, div_le_iff₀ hpos]
      linarith
    have hscaled := mul_le_mul_of_nonneg_right hnear (pow_scale_pos c).le
    rw [add_mul] at hscaled
    refine lt_of_lt_of_le ?_ hcoeff
    linarith

/-- Where the finest scale has fewer places than are asked for, it does as well if the number is
representable with those places at all. -/
theorem FinestScale.nearest_eq (h : FinestScale q scale) (hlt : scale < places)
    (hrep : Representable (nearest q places)) : nearest q scale = nearest q places := by
  obtain ⟨s, -, hs, hgrid, hrange⟩ := exists_scale_of_representable hrep
  have hle : s ≤ scale := by
    by_contra! hgt
    have hpow : (10 : ℚ) ^ (scale + 1) ≤ 10 ^ s := pow_le_pow_right₀ (by norm_num) hgt
    have hmono := mul_le_mul_of_nonneg_left hpow (abs_nonneg q)
    have hwide := h.finest (hgt.trans_le hs)
    linarith
  refine nearest_eq_of_lt (hgrid.mono hle) ((abs_nearest_sub_le q places).trans_lt ?_)
  exact div_lt_div_of_pos_left (by norm_num) (by positivity)
    (pow_lt_pow_right₀ (by norm_num) hlt)

/-! ## A quotient that is rounded twice -/

/-- Rounding to some places gives the nearest number with these places.  A decimal of fewer places
lies on the grid and stays as it is. -/
theorem toRat_roundTo (d : Decimal) (places : ℕ) :
    (d.roundTo places).toRat = nearest d.toRat places := by
  unfold roundTo
  split
  next hle => rw [nearest_eq_self (d.onGrid_toRat.mono hle)]
  next hgt =>
    have hplaces : places ≤ d.scale := (not_le.mp hgt).le
    -- With fewer places there are fewer units.
    have hpow : (10 : ℚ) ^ places ≤ 10 ^ d.scale := pow_le_pow_right₀ (by norm_num) hplaces
    have hmono := mul_le_mul_of_nonneg_left hpow (abs_nonneg d.toRat)
    have hsome := isSome_roundAt? (hplaces.trans d.scale_le) (q := d.toRat)
      (lt_of_lt_of_le (by linarith) d.abs_toRat_mul_le)
    obtain ⟨r, hr⟩ := Option.isSome_iff_exists.mp hsome
    rw [hr, Option.getD_some, (roundAt?_eq_some hr).2]

/-- The number `r` comes from `q` by rounding at the finest scale there is for it, and then to some
places.  If the number that `q` is with these places is representable, then `r` is this number
unless the first rounding has led half-way between two neighbours; in that case `r` is the even one
of them, and may be the farther one by what the first rounding has moved `q`. -/
structure RoundedTwice (q : ℚ) (scale places : ℕ) (r : ℚ) : Prop where
  finest : FinestScale q scale
  twice : r = nearest (nearest q scale) places
  once : Representable (nearest q places) →
    (Halfway places (nearest q scale) → nearest q scale = q) → r = nearest q places
  once_iff : Representable (nearest q places) →
    (r = nearest q places ↔ |r - q| ≤ 1 / 2 / 10 ^ places)
  near : |r - q| ≤ 1 / 2 / 10 ^ places + 1 / 2 / 10 ^ scale

/-- To round at the finest scale and then to some places is to round to these places at once, unless
the first rounding has led half-way between two neighbours. -/
theorem FinestScale.nearest_nearest (h : FinestScale q scale)
    (hrep : Representable (nearest q places))
    (hhalf : Halfway places (nearest q scale) → nearest q scale = q) :
    nearest (nearest q scale) places = nearest q places := by
  rcases le_or_gt places scale with hle | hlt
  · exact Rounding.nearest_nearest hle hhalf
  · rw [h.nearest_eq hlt hrep, nearest_eq_self (onGrid_nearest q places)]

/-- What is rounded at the finest scale and then to some places is rounded twice, whichever of the
two has fewer places. -/
theorem FinestScale.roundedTwice (h : FinestScale q scale) (places : ℕ) :
    RoundedTwice q scale places (nearest (nearest q scale) places) := by
  refine ⟨h, rfl, h.nearest_nearest, fun hrep => ⟨fun heq => ?_, fun hnear => ?_⟩, ?_⟩
  · rw [heq]
    exact abs_nearest_sub_le q places
  · rcases hnear.lt_or_eq with hlt | hunit
    · exact (nearest_eq_of_lt (onGrid_nearest _ _) hlt).symm
    · -- The number itself lies half-way.  If the finest scale has a place for that, it is kept.
      refine h.nearest_nearest hrep fun hhalf => nearest_eq_self ?_
      have hgrid := (halfway_of_abs_eq (onGrid_nearest _ _) hunit).onGrid
      rcases Nat.lt_or_ge places scale with hlt | hge
      · exact hgrid.mono hlt
      · exact absurd ((onGrid_nearest q scale).mono hge) hhalf.not_onGrid
  · calc |nearest (nearest q scale) places - q|
        ≤ |nearest (nearest q scale) places - nearest q scale| + |nearest q scale - q| :=
          abs_sub_le ..
      _ ≤ 1 / 2 / 10 ^ places + 1 / 2 / 10 ^ scale :=
          add_le_add (abs_nearest_sub_le _ _) (abs_nearest_sub_le _ _)

/-- **A quotient that is rounded to some places is rounded twice.**  The first time is the division
itself, which does not know how many places will be asked for.
Source: `refresh_average_costs`, where `checked_div` is followed by `round_dp`. -/
theorem exists_roundedTwice_of_div? (h : a.div? b = some d) (places : ℕ) :
    ∃ scale, RoundedTwice (a.toRat / b.toRat) scale places (d.roundTo places).toRat := by
  have hfit := map_toRat_div? a b
  rw [h] at hfit
  split at hfit
  next => exact absurd hfit.symm (Option.some_ne_none _).symm
  next =>
    obtain ⟨c, hc, hcd⟩ := Option.map_eq_some_iff.mp hfit.symm
    obtain ⟨scale, hscale, hnearest⟩ := exists_finestScale_of_fit hc
    refine ⟨scale, ?_⟩
    rw [toRat_roundTo, ← hcd, hnearest]
    exact hscale.roundedTwice places

end Decimal

end CostBasis
