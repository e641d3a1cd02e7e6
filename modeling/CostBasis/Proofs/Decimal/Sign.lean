import CostBasis.Proofs.Decimal.Fit

/-!
# Decimals on both sides of zero

Rounding does the same on both sides of zero, so all arithmetic does.  With the signs of its
operands changed an operation meets the same fault, or has the same result with its sign changed,
down to the trailing zeros.

Main statements: `fit_negated`, and one lemma for each operation.
-/

namespace CostBasis

namespace Decimal

/-! ## Signs -/

/-- The sign changed twice is the sign as it was. -/
theorem negated_negated (d : Decimal) : -(-d) = d := by
  obtain ⟨coeff, scale, _, _, _⟩ := d
  show neg (neg _) = _
  simp only [neg, neg_neg]

/-- A number is zero if its negative is. -/
theorem isZero_negated (d : Decimal) : (-d).isZero = d.isZero := by
  rw [Bool.eq_iff_iff, isZero_iff, isZero_iff, toRat_neg, neg_eq_zero]

/-- Of a number and its negative one is positive, if they are not zero. -/
theorem isPositive_negated {d : Decimal} (h : ¬d.isZero = true) :
    (-d).isPositive = !d.isPositive := by
  rw [isZero_iff] at h
  rw [Bool.eq_iff_iff, Bool.not_eq_true', ← Bool.not_eq_true, isPositive_iff, isPositive_iff,
    toRat_neg, neg_pos, not_lt]
  exact ⟨le_of_lt, fun hle => lt_of_le_of_ne hle h⟩

/-- Of a number and its negative one is negative, if they are not zero. -/
theorem isNegative_negated {d : Decimal} (h : ¬d.isZero = true) :
    (-d).isNegative = !d.isNegative := by
  rw [isZero_iff] at h
  rw [Bool.eq_iff_iff, Bool.not_eq_true', ← Bool.not_eq_true, isNegative_iff, isNegative_iff,
    toRat_neg, neg_lt_zero, not_lt]
  exact ⟨le_of_lt, fun hle => lt_of_le_of_ne hle (Ne.symm h)⟩

/-- A number and its negative have one magnitude, down to the trailing zeros. -/
theorem abs_negated (d : Decimal) : (-d).abs = d.abs := by
  by_cases hzero : d.isZero = true
  · rw [eq_zero_of_isZero hzero]
    rfl
  · unfold abs
    rw [isNegative_negated hzero]
    cases d.isNegative with
    | false => exact negated_negated d
    | true => rfl

/-! ## Rounding -/

variable {q : ℚ} {m : ℤ} {places s : ℕ}

/-- The sign of a coefficient is the sign of the decimal, and zero is the same either way, as it has
no sign. -/
theorem ofParts_negated (hm : m.natAbs < coeffBound) (hm' : (-m).natAbs < coeffBound)
    (hs : s ≤ maxScale) : ofParts (-m) s hm' hs = -ofParts m s hm hs := by
  unfold ofParts
  by_cases h : m = 0
  · rw [dif_pos h, dif_pos (by omega)]
    rfl
  · rw [dif_neg h, dif_neg (by omega)]
    rfl

/-- At a given scale a number and its negative are rounded to opposite decimals, or neither is in
range.  Halves go to the even neighbour on both sides of zero. -/
theorem roundAt?_negated (q : ℚ) (s : ℕ) : roundAt? (-q) s = (roundAt? q s).map (-·) := by
  have hround : Rounding.halfEven (-q * (Nat.pow 10 s : ℕ)) =
      -Rounding.halfEven (q * (Nat.pow 10 s : ℕ)) := by rw [neg_mul, Rounding.halfEven_neg]
  unfold roundAt? ofParts?
  rw [hround]
  split
  next h =>
    rw [dif_pos (by rwa [Int.natAbs_neg] at h)]
    exact congrArg some (ofParts_negated ..)
  next h =>
    rw [dif_neg (by rwa [Int.natAbs_neg] at h)]
    rfl

/-- **A number and its negative are rounded in the same way.**  The scales are tried from the finest
one on, and at each of them both are in range or neither is. -/
theorem fit_negated (q : ℚ) (places : ℕ) : fit (-q) places = (fit q places).map (-·) := by
  induction places with
  | zero => exact roundAt?_negated q 0
  | succ places ih =>
      rw [fit, fit, roundAt?_negated]
      cases roundAt? q (places + 1) with
      | some d => rfl
      | none => exact ih

/-! ## Operations -/

variable (a b : Decimal)

/-- A fault has no sign. -/
theorem orFault_negated (x : Option Decimal) (fault : Fault) :
    orFault (x.map (-·)) fault = (orFault x fault).map (-·) := by
  cases x <;> rfl

/-- The sum of the negatives is the negative of the sum, or both overflow. -/
theorem add_negated : (-a).add (-b) = (a.add b).map (-·) := by
  unfold add
  rw [toRat_neg, toRat_neg, ← neg_add, fit_negated]
  exact orFault_negated _ _

/-- The difference of the negatives is the negative of the difference, or both overflow. -/
theorem sub_negated : (-a).sub (-b) = (a.sub b).map (-·) := by
  unfold sub
  rw [toRat_neg, toRat_neg, ← neg_sub', fit_negated]
  exact orFault_negated _ _

/-- A product changes its sign with its first factor.  The second factor keeps its sign here, since
a price has none that would change. -/
theorem mul_negated : (-a).mul b = (a.mul b).map (-·) := by
  unfold mul
  rw [toRat_neg, neg_mul, fit_negated]
  exact orFault_negated _ _

end Decimal

end CostBasis
