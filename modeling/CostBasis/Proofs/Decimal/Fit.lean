import CostBasis.Proofs.Decimal.Exact
import CostBasis.Proofs.Decimal.Grid

/-!
# How near a result is to the exact one

An exact result goes to the finest scale at which it is representable.  So a number that lies on
some grid of decimals, and is not too large for it, is not rounded at all; and any other number that
is in range loses less than one part in `10 ^ 28`, or less than `10 ^ -28` where it is small.

Main statements: `Representable.exists_fit` for the numbers that are not rounded, `exists_fit_near`
for those that are.  The sums, differences and products of the last section are exact by the first
of them.
-/

namespace CostBasis

namespace Decimal

/-- A decimal lies on the grid of its scale. -/
theorem onGrid_toRat (d : Decimal) : OnGrid d.scale d.toRat :=
  ⟨d.coeff, by rw [toRat_eq_div, div_mul_cancel₀ _ (pow_scale_pos d).ne']⟩

/-- A decimal has less than `2 ^ 96` units of its scale. -/
theorem abs_toRat_mul_le (d : Decimal) : |d.toRat| * 10 ^ d.scale + 1 ≤ coeffBound := by
  rw [toRat_eq_div, abs_div, abs_of_pos (pow_scale_pos d),
    div_mul_cancel₀ _ (pow_scale_pos d).ne', ← Int.cast_abs, ← Nat.cast_natAbs]
  exact_mod_cast d.coeff_lt

/-- The smaller of two decimals is the smaller number. -/
theorem toRat_min (a b : Decimal) : (min a b).toRat = min a.toRat b.toRat := by
  rcases le_or_gt a.toRat b.toRat with h | h
  · rw [min_of_le h, min_eq_left h]
  · rw [min_of_lt h, min_eq_right h.le]

/-! ## Rounding at a scale -/

variable {q : ℚ} {d : Decimal} {places s : ℕ}

/-- The number of a coefficient and a scale, with the one decimal that there is of zero. -/
theorem toRat_ofParts (m : ℤ) (s : ℕ) (hm : m.natAbs < coeffBound) (hs : s ≤ maxScale) :
    (ofParts m s hm hs).toRat = m / 10 ^ s := by
  unfold ofParts
  split
  · next h => rw [h, toRat_zero, Int.cast_zero, zero_div]
  · exact toRat_eq_div _

/-- What a number is at a scale: the nearest number that has as many places, if it is in range.  All
that is used of the search for a scale goes through this lemma. -/
theorem roundAt?_eq_some (h : roundAt? q s = some d) :
    s ≤ maxScale ∧ d.toRat = Rounding.nearest q s := by
  unfold roundAt? ofParts? at h
  split at h
  · next hparts =>
      obtain rfl := Option.some.inj h
      refine ⟨hparts.2, ?_⟩
      rw [toRat_ofParts, Rounding.nearest]
      norm_num
  · exact absurd h (Option.some_ne_none d).symm

/-- The numbers that are representable at a scale after rounding are those with less than `2 ^ 96`
units of it.  The half is there because the last number below the bound is odd, so that what lies
half-way goes up to the bound. -/
theorem isSome_roundAt?_iff (hs : s ≤ maxScale) :
    (roundAt? q s).isSome = true ↔ |q| * 10 ^ s + 1 / 2 < coeffBound := by
  have hpos : (0 : ℚ) < 10 ^ s := by positivity
  have hscaled : |q * 10 ^ s| = |q| * 10 ^ s := by rw [abs_mul, abs_of_pos hpos]
  have hpow : ((Nat.pow 10 s : ℕ) : ℚ) = 10 ^ s := by norm_num
  rw [← hscaled, ← Rounding.natAbs_halfEven_lt_iff (by decide), roundAt?, ofParts?, hpow]
  split
  · next h => exact iff_of_true rfl h.1
  · next h => exact iff_of_false Bool.false_ne_true fun hlt => h ⟨hlt, hs⟩

/-- A number that has no more than `2 ^ 96` units of a scale is representable there. -/
theorem isSome_roundAt? (hs : s ≤ maxScale) (hq : |q| * 10 ^ s + 1 / 2 < coeffBound) :
    (roundAt? q s).isSome = true :=
  (isSome_roundAt?_iff hs).mpr hq

/-- Rounding at a scale moves a number by half a unit of the scale at most. -/
theorem abs_toRat_sub_le (h : roundAt? q s = some d) : |d.toRat - q| ≤ 1 / 2 / 10 ^ s := by
  rw [(roundAt?_eq_some h).2]
  exact Rounding.abs_nearest_sub_le q s

/-- A number on the grid of the scale is not moved. -/
theorem toRat_eq_of_onGrid (h : roundAt? q s = some d) (hq : OnGrid s q) : d.toRat = q := by
  rw [(roundAt?_eq_some h).2, Rounding.nearest_eq_self hq]

/-- What was rounded at a scale lies on its grid. -/
theorem onGrid_of_roundAt? (h : roundAt? q s = some d) : OnGrid s d.toRat := by
  rw [(roundAt?_eq_some h).2]
  exact Rounding.onGrid_nearest q s

/-! ## The finest scale -/

/-- The result of the search is the number at some scale, whichever it stopped at. -/
theorem exists_roundAt?_of_fit (h : fit q places = some d) :
    ∃ s ≤ maxScale, roundAt? q s = some d := by
  induction places with
  | zero => exact ⟨0, Nat.zero_le _, h⟩
  | succ places ih =>
      rw [fit] at h
      split at h
      · next hround =>
          obtain rfl := Option.some.inj h
          exact ⟨places + 1, (roundAt?_eq_some hround).1, hround⟩
      · exact ih h

/-- The result is at a scale where there is one, and there is none at any finer scale.  The scales
are tried from the finest one on, so this is an induction on how many are left. -/
theorem fit_eq_of_isSome (hle : s ≤ places) (hsome : (roundAt? q s).isSome = true) :
    ∃ d s', fit q places = some d ∧ roundAt? q s' = some d ∧ s ≤ s' ∧ s' ≤ places ∧
      (s' < places → roundAt? q (s' + 1) = none) := by
  induction places with
  | zero =>
      obtain rfl := Nat.le_zero.mp hle
      obtain ⟨d, hd⟩ := Option.isSome_iff_exists.mp hsome
      exact ⟨d, 0, hd, hd, le_rfl, le_rfl, fun h => absurd h (lt_irrefl 0)⟩
  | succ places ih =>
      rw [fit]
      cases hfine : roundAt? q (places + 1) with
      | some d => exact ⟨d, places + 1, rfl, hfine, hle, le_rfl, fun h => absurd h (lt_irrefl _)⟩
      | none =>
          have hne : s ≠ places + 1 := by
            rintro rfl
            rw [hfine] at hsome
            exact Bool.false_ne_true hsome
          obtain ⟨d, s', hfit, hround, hs, hs', hnone⟩ := ih (by omega)
          refine ⟨d, s', hfit, hround, hs, by omega, fun _ => ?_⟩
          rcases Nat.lt_or_ge s' places with hlt | hge
          · exact hnone hlt
          · obtain rfl : s' = places := by omega
            exact hfine

/-- **A number is in range exactly if it is in range without places.**  With fewer places the
coefficient is only smaller. -/
theorem isSome_fit_iff : (fit q places).isSome = true ↔ |q| + 1 / 2 < coeffBound := by
  have hzero : (roundAt? q 0).isSome = true ↔ |q| + 1 / 2 < coeffBound := by
    rw [isSome_roundAt?_iff (Nat.zero_le _), pow_zero, mul_one]
  constructor
  · intro hsome
    obtain ⟨d, hd⟩ := Option.isSome_iff_exists.mp hsome
    obtain ⟨s, hs, hround⟩ := exists_roundAt?_of_fit hd
    -- At a finer scale there are more units.
    have hwide := (isSome_roundAt?_iff hs).mp (by rw [hround]; rfl)
    have hpow : (1 : ℚ) ≤ 10 ^ s := one_le_pow₀ (by norm_num)
    have hle := le_mul_of_one_le_right (abs_nonneg q) hpow
    linarith
  · intro hq
    obtain ⟨d, -, hfit, -⟩ := fit_eq_of_isSome (Nat.zero_le places) (hzero.mpr hq)
    rw [hfit]
    rfl

/-- The number is that of a decimal. -/
def Representable (q : ℚ) : Prop := ∃ d : Decimal, d.toRat = q

/-- The numbers with less than `2 ^ 96` units on a grid of decimals are representable. -/
theorem representable_of_onGrid (hs : s ≤ maxScale) (hgrid : OnGrid s q)
    (hq : |q| * 10 ^ s + 1 / 2 < coeffBound) : Representable q := by
  obtain ⟨d, hd⟩ := Option.isSome_iff_exists.mp (isSome_roundAt? hs hq)
  exact ⟨d, toRat_eq_of_onGrid hd hgrid⟩

/-- **A representable number is not rounded**, if the places asked for are enough for it.  It may be
found at a finer scale than its own, but it lies on the finer grid too. -/
theorem Representable.exists_fit (h : Representable q) (hplaces : OnGrid places q) :
    ∃ d, fit q places = some d ∧ d.toRat = q := by
  obtain ⟨c, rfl⟩ := h
  -- The number lies on the coarser one of the two grids, and has its coefficient at most there.
  have hmin : OnGrid (min places c.scale) c.toRat := by
    rcases le_total places c.scale with hle | hle
    · rwa [min_eq_left hle]
    · rw [min_eq_right hle]
      exact c.onGrid_toRat
  have hwide : |c.toRat| * 10 ^ min places c.scale + 1 / 2 < coeffBound := by
    calc |c.toRat| * 10 ^ min places c.scale + 1 / 2
        ≤ |c.toRat| * 10 ^ c.scale + 1 / 2 := by
          gcongr
          · norm_num
          · exact min_le_right _ _
      _ < |c.toRat| * 10 ^ c.scale + 1 := by norm_num
      _ ≤ coeffBound := c.abs_toRat_mul_le
  have hsome := isSome_roundAt? ((min_le_right _ _).trans c.scale_le) hwide
  obtain ⟨d, s, hfit, hround, hs, -, -⟩ := fit_eq_of_isSome (min_le_left _ _) hsome
  exact ⟨d, hfit, toRat_eq_of_onGrid hround (hmin.mono hs)⟩

/-- **A number in range is rounded by one part in `10 ^ 28`, or by `10 ^ -28`, at most.**  The scale
that is found is either the finest one that was asked for, or the next finer one was too fine for
the number; then the number has 28 digits at least. -/
theorem exists_fit_near (hplaces : maxScale ≤ places ∨ OnGrid places q)
    (hq : |q| + 1 / 2 < coeffBound) :
    ∃ d, fit q places = some d ∧ |d.toRat - q| ≤ (|q| + 1) / 10 ^ 28 := by
  have hsome : (roundAt? q 0).isSome = true := isSome_roundAt? (Nat.zero_le _) (by simpa using hq)
  obtain ⟨d, s, hfit, hround, -, hs, hnone⟩ := fit_eq_of_isSome (Nat.zero_le places) hsome
  have hmax := (roundAt?_eq_some hround).1
  have hnear := abs_toRat_sub_le hround
  have hnonneg := abs_nonneg q
  refine ⟨d, hfit, ?_⟩
  by_cases hend : s = maxScale
  · -- There is no finer scale.
    rw [hend] at hnear
    calc |d.toRat - q| ≤ 1 / 2 / 10 ^ 28 := hnear
      _ ≤ (|q| + 1) / 10 ^ 28 := by gcongr; linarith
  rcases hs.lt_or_eq with hlt | rfl
  · -- At the next scale the number has too many units.
    have hwide : coeffBound ≤ |q| * 10 ^ (s + 1) + 1 / 2 := by
      by_contra h
      have := isSome_roundAt? (show s + 1 ≤ maxScale by omega) (not_le.mp h)
      rw [hnone hlt] at this
      exact Bool.false_ne_true this
    have hpos : (0 : ℚ) < 10 ^ s := by positivity
    have hunits : 10 ^ 28 / 2 ≤ |q| * 10 ^ s := by
      rw [pow_succ, ← mul_assoc] at hwide
      norm_num at hwide ⊢
      linarith
    calc |d.toRat - q| ≤ 1 / 2 / 10 ^ s := hnear
      _ ≤ |q| / 10 ^ 28 := by
        rw [div_le_div_iff₀ hpos (by norm_num)]
        linarith
      _ ≤ (|q| + 1) / 10 ^ 28 := by gcongr; linarith
  · -- All places were asked for, and the number has no more.
    have hgrid : OnGrid s q := hplaces.resolve_left (by omega)
    rw [toRat_eq_of_onGrid hround hgrid, sub_self, abs_zero]
    positivity

/-! ## Exact operations -/

variable {a b : Decimal} {P : Decimal → Prop}

/-- A sum is exact if it is representable. -/
theorem exactSum_of_representable (h : Representable (a.toRat + b.toRat))
    (hP : ∀ d : Decimal, d.toRat = a.toRat + b.toRat → P d) : a.ExactSum b P := by
  obtain ⟨d, hfit, hd⟩ := h.exists_fit ((a.onGrid_toRat.mono (le_max_left _ _)).add
    (b.onGrid_toRat.mono (le_max_right _ _)))
  exact ⟨d, by rw [add, hfit]; rfl, hd, hP d hd⟩

/-- A difference is exact if it is representable. -/
theorem exactDifference_of_representable (h : Representable (a.toRat - b.toRat))
    (hP : ∀ d : Decimal, d.toRat = a.toRat - b.toRat → P d) : a.ExactDifference b P := by
  obtain ⟨d, hfit, hd⟩ := h.exists_fit ((a.onGrid_toRat.mono (le_max_left _ _)).sub
    (b.onGrid_toRat.mono (le_max_right _ _)))
  exact ⟨d, by rw [sub, hfit]; rfl, hd, hP d hd⟩

/-- A product is exact if it is representable. -/
theorem exactProduct_of_representable (h : Representable (a.toRat * b.toRat))
    (hP : ∀ d : Decimal, d.toRat = a.toRat * b.toRat → P d) : a.ExactProduct b P := by
  obtain ⟨d, hfit, hd⟩ := h.exists_fit (a.onGrid_toRat.mul b.onGrid_toRat)
  exact ⟨d, by rw [mul, hfit]; rfl, hd, hP d hd⟩

/-- Nothing times a decimal is nothing. -/
theorem zero_mul_eq (b : Decimal) : zero.mul b = .ok zero := by
  have hproduct : zero.toRat * b.toRat = 0 := by rw [toRat_zero, zero_mul]
  obtain ⟨d, hmul, hd, -⟩ : zero.ExactProduct b fun _ => True :=
    exactProduct_of_representable ⟨zero, toRat_zero.trans hproduct.symm⟩ fun _ _ => trivial
  rw [hmul, eq_zero_of_isZero ((isZero_iff d).mpr (hd.trans hproduct))]

/-! ## Rounded operations -/

/-- A product in range is near the exact one. -/
theorem exists_mul_near (h : |a.toRat * b.toRat| + 1 / 2 < coeffBound) :
    ∃ d, a.mul b = .ok d ∧ |d.toRat - a.toRat * b.toRat| ≤ (|a.toRat * b.toRat| + 1) / 10 ^ 28 := by
  obtain ⟨d, hfit, hd⟩ := exists_fit_near (.inr (a.onGrid_toRat.mul b.onGrid_toRat)) h
  exact ⟨d, by rw [mul, hfit]; rfl, hd⟩

/-- Dropping trailing zeros leaves the number: a factor of ten goes out of the coefficient and of
the power under it at once. -/
theorem dropZeros_eq (m : ℤ) (s : ℕ) :
    ((dropZeros m s).1 : ℚ) / 10 ^ (dropZeros m s).2 = m / 10 ^ s := by
  induction s generalizing m with
  | zero => rfl
  | succ s ih =>
      rw [dropZeros]
      split
      · next h =>
          have hm : m = m / 10 * 10 := (Int.ediv_mul_cancel (Int.dvd_of_emod_eq_zero h)).symm
          rw [ih]
          conv_rhs => rw [hm]
          push_cast
          rw [pow_succ, mul_div_mul_right _ _ (by norm_num)]
      · rfl

/-- Without its trailing zeros a decimal is the same number. -/
@[simp] theorem toRat_reduce (d : Decimal) : d.reduce.toRat = d.toRat := by
  rw [toRat_eq_div, toRat_eq_div d]
  exact dropZeros_eq d.coeff d.scale

/-- The quotient of decimals of which one coefficient divides the other has no more places than
are asked for. -/
theorem onGrid_div_of_dvd (h : a.coeff % b.coeff = 0) :
    OnGrid (a.scale - b.scale) (a.toRat / b.toRat) := by
  obtain ⟨n, hn⟩ := Int.dvd_of_emod_eq_zero h
  by_cases hb : (b.coeff : ℚ) = 0
  · rw [toRat_eq_div b, hb, zero_div, div_zero]
    exact OnGrid.zero
  have hquot : a.toRat / b.toRat = n * 10 ^ b.scale / 10 ^ a.scale := by
    rw [toRat_eq_div, toRat_eq_div b, hn]
    push_cast
    field_simp
  refine ⟨n * 10 ^ (b.scale - a.scale), ?_⟩
  push_cast
  rw [hquot, div_mul_eq_mul_div, div_eq_iff (pow_scale_pos a).ne', mul_assoc, mul_assoc, ← pow_add,
    ← pow_add]
  congr 2
  omega

/-- **A quotient has no decimal exactly if it is too large.**  So `none` does not only stand for a
divisor that is zero. -/
theorem isSome_div?_iff (hb : b.toRat ≠ 0) :
    (a.div? b).isSome = true ↔ |a.toRat / b.toRat| + 1 / 2 < coeffBound := by
  have hzero : ¬b.isZero = true := by rwa [isZero_iff]
  unfold div?
  rw [if_neg hzero]
  split
  · exact isSome_fit_iff
  · rw [Option.isSome_map]
    exact isSome_fit_iff

/-- A quotient in range is near the exact one.  The error is relative, since a large quotient has
fewer places. -/
theorem exists_div?_near (hb : b.toRat ≠ 0) (h : |a.toRat / b.toRat| + 1 / 2 < coeffBound) :
    ∃ d, a.div? b = some d ∧
      |d.toRat - a.toRat / b.toRat| ≤ (|a.toRat / b.toRat| + 1) / 10 ^ 28 := by
  have hzero : ¬b.isZero = true := by rwa [isZero_iff]
  unfold div?
  rw [if_neg hzero]
  split
  · next hdvd => exact exists_fit_near (.inr (onGrid_div_of_dvd hdvd)) h
  · obtain ⟨d, hfit, hd⟩ := exists_fit_near (.inl le_rfl) h
    exact ⟨d.reduce, by rw [hfit]; rfl, by rwa [toRat_reduce]⟩

/-- Rounding to some places gives a number of these places, near the number that is rounded.  It is
in range as the number itself is. -/
theorem roundTo_near {places : ℕ} (hplaces : places ≤ maxScale)
    (h : |d.toRat| * 10 ^ places + 1 / 2 < coeffBound) :
    OnGrid places (d.roundTo places).toRat ∧
      |(d.roundTo places).toRat - d.toRat| ≤ 1 / 2 / 10 ^ places := by
  unfold roundTo
  split
  · next hle =>
      refine ⟨d.onGrid_toRat.mono hle, ?_⟩
      rw [sub_self, abs_zero]
      positivity
  · obtain ⟨r, hr⟩ := Option.isSome_iff_exists.mp (isSome_roundAt? hplaces h)
    rw [hr, Option.getD_some]
    exact ⟨onGrid_of_roundAt? hr, abs_toRat_sub_le hr⟩

end Decimal

end CostBasis
