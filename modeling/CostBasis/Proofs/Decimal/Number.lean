import CostBasis.Decimal.Arithmetic
import Mathlib

/-!
# Decimals as numbers

Everything that the accounting asks of a decimal can be said of the rational number `toRat`: the
tests for a sign and for zero, the change of a sign, the amount without its sign, the smaller of
two.  With the lemmas of this file no proof about accounts looks at a coefficient or a scale.

The last section opens a calculation in `Except` by the results of its parts.
-/

namespace CostBasis

namespace Decimal

/-- The number that a decimal stands for is its coefficient over a power of ten. -/
theorem toRat_eq_div (d : Decimal) : d.toRat = d.coeff / 10 ^ d.scale := by
  unfold toRat
  rw [Rat.mkRat_eq_div]
  norm_num

/-- The decimal zero is the number zero. -/
@[simp] theorem toRat_zero : zero.toRat = 0 := by
  simp [toRat_eq_div, zero]

/-! ## Signs -/

/-- The power of ten under a coefficient is positive. -/
theorem pow_scale_pos (d : Decimal) : (0 : ℚ) < 10 ^ d.scale := by positivity

/-- A number is zero if its coefficient is. -/
theorem isZero_iff (d : Decimal) : d.isZero = true ↔ d.toRat = 0 := by
  rw [toRat_eq_div, div_eq_zero_iff, or_iff_left (pow_scale_pos d).ne']
  simp [isZero]

/-- There is only one zero, which has no places and no sign. -/
theorem eq_zero_of_isZero {d : Decimal} (h : d.isZero = true) : d = zero := by
  obtain ⟨coeff, scale, hcoeff, hscale, hzero⟩ := d
  obtain rfl : coeff = 0 := by simpa [isZero] using h
  obtain rfl : scale = 0 := hzero rfl
  rfl

/-- A number is above zero if its coefficient is. -/
theorem isPositive_iff (d : Decimal) : d.isPositive = true ↔ 0 < d.toRat := by
  rw [toRat_eq_div, div_pos_iff_of_pos_right (pow_scale_pos d)]
  simp [isPositive]

/-- A number is below zero if its coefficient is. -/
theorem isNegative_iff (d : Decimal) : d.isNegative = true ↔ d.toRat < 0 := by
  rw [toRat_eq_div, div_neg_iff]
  have hpos := pow_scale_pos d
  simp [isNegative, hpos, hpos.not_gt]

/-- Decimals are held to be equal if they are the same number, whatever zeros they end in. -/
theorem isEqual_iff (a b : Decimal) : a.isEqual b = true ↔ a.toRat = b.toRat := by
  simp [isEqual]

/-- The decimal with its sign changed is the negative number. -/
@[simp] theorem toRat_neg (d : Decimal) : (-d).toRat = -d.toRat := by
  rw [toRat_eq_div, toRat_eq_div d]
  show ((-d.coeff : ℤ) : ℚ) / 10 ^ d.scale = _
  push_cast
  ring

/-- The decimal without its sign is the magnitude of the number. -/
@[simp] theorem toRat_abs (d : Decimal) : d.abs.toRat = |d.toRat| := by
  unfold abs
  by_cases h : d.isNegative = true
  · rw [if_pos h, toRat_neg, abs_of_neg ((isNegative_iff d).mp h)]
  · rw [if_neg h, abs_of_nonneg (not_lt.mp fun hlt => h ((isNegative_iff d).mpr hlt))]

/-- Of two decimals the first is the smaller one if its number is not larger. -/
theorem min_of_le {a b : Decimal} (h : a.toRat ≤ b.toRat) : min a b = a := if_pos h

/-- Of two decimals the second is the smaller one if its number is smaller. -/
theorem min_of_lt {a b : Decimal} (h : b.toRat < a.toRat) : min a b = b := if_neg h.not_ge

/-! ## Quotients -/

/-- Nothing is divided by zero. -/
theorem div?_of_isZero {b : Decimal} (h : b.isZero = true) (a : Decimal) : a.div? b = none := by
  simp [div?, h]

/-- Zero is divided without a remainder. -/
theorem zero_div? {b : Decimal} (h : ¬b.isZero = true) : zero.div? b = some zero := by
  have hdvd : zero.coeff % b.coeff = 0 := Int.zero_emod _
  have hplaces : zero.scale - b.scale = 0 := Nat.zero_sub _
  rw [div?, if_neg h, if_pos hdvd, hplaces, toRat_zero, zero_div]
  decide +kernel

/-- Zero is not rounded. -/
theorem roundTo_zero (places : Nat) : zero.roundTo places = zero := if_pos (Nat.zero_le _)

end Decimal

/-! ## Calculations that may stop -/

section calculation

variable {ε α β : Type}

/-- A calculation with a result goes on with it. -/
@[simp] theorem ok_bind (a : α) (f : α → Except ε β) : (Except.ok a >>= f) = f a := rfl

/-- Two calculations in a row have a result if each has.  This is how the proofs about accounts take
a calculation apart. -/
theorem bind_eq_ok {x : Except ε α} {f : α → Except ε β} {b : β} :
    (x >>= f) = .ok b ↔ ∃ a, x = .ok a ∧ f a = .ok b := by
  cases x <;> simp [bind, Except.bind]

/-- A function of the result of a calculation. -/
theorem map_eq_ok {x : Except ε α} {f : α → β} {b : β} :
    x.map f = .ok b ↔ ∃ a, x = .ok a ∧ f a = b := by
  cases x <;> simp [Except.map]

/-- A function of a result that is known. -/
theorem eq_of_map_eq_ok {x : Except ε α} {f : α → β} {a : α} {b : β} (h : x = .ok a)
    (h' : x.map f = .ok b) : b = f a := by
  rw [h] at h'
  exact (Except.ok.inj h').symm

end calculation

end CostBasis
