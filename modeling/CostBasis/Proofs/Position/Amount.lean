import CostBasis.Proofs.Decimal.Fit

/-!
# Amounts of bounded size

The numbers that a ledger works with: they have some places at most, and are no larger than some
bound.  A sum has the bounds of the summands added, a change of sign leaves a bound, and what lies
between zero and an amount has its bound.  So the bound of any result can be read off the
calculation, and as long as it is not above ten times the ceiling the result is representable.
-/

namespace CostBasis

open Decimal

/-- The largest total of the trades in the safe envelope. -/
def ceiling : ℚ := 10 ^ 11

/-- A number of `places` places that is no larger than `bound`. -/
structure Amount (places : ℕ) (bound q : ℚ) : Prop where
  grid : OnGrid places q
  le : |q| ≤ bound

namespace Amount

variable {places more : ℕ} {x y q r : ℚ}

/-- A bound may be raised. -/
theorem mono (h : Amount places x q) (hle : x ≤ y) : Amount places y q :=
  ⟨h.grid, h.le.trans hle⟩

/-- Places may be added. -/
theorem finer (h : Amount places x q) (hle : places ≤ more) : Amount more x q :=
  ⟨h.grid.mono hle, h.le⟩

/-- A change of sign leaves the bound. -/
theorem neg (h : Amount places x q) : Amount places x (-q) :=
  ⟨h.grid.neg, by rw [abs_neg]; exact h.le⟩

/-- The bound of a sum is the sum of the bounds. -/
theorem add (h : Amount places x q) (h' : Amount places y r) : Amount places (x + y) (q + r) :=
  ⟨h.grid.add h'.grid, (abs_add_le q r).trans (add_le_add h.le h'.le)⟩

/-- The bound of a difference is the sum of the bounds as well. -/
theorem sub (h : Amount places x q) (h' : Amount places y r) : Amount places (x + y) (q - r) :=
  sub_eq_add_neg q r ▸ h.add h'.neg

/-- A side or a direction changes the sign at most. -/
theorem sign_mul {s : ℚ} (hs : s = 1 ∨ s = -1) (h : Amount places x q) :
    Amount places x (s * q) := by
  rcases hs with rfl | rfl
  · rwa [one_mul]
  · rw [neg_one_mul]
    exact h.neg

/-- What lies between zero and an amount is an amount. -/
theorem of_mem_uIcc (h : Amount places x q) (hr : OnGrid places r) (hmem : r ∈ Set.uIcc 0 q) :
    Amount places x r ∧ Amount places x (q - r) := by
  have hle := Set.abs_sub_left_of_mem_uIcc hmem
  have hrest := Set.abs_sub_right_of_mem_uIcc hmem
  rw [sub_zero, sub_zero] at hle
  rw [sub_zero] at hrest
  exact ⟨⟨hr, hle.trans h.le⟩, ⟨h.grid.sub hr, hrest.trans h.le⟩⟩

/-- There is room for ten times the ceiling. -/
theorem representable (h : Amount 16 x q) (hx : x ≤ 10 * ceiling) : Representable q := by
  refine representable_of_onGrid (s := 16) (by decide) h.grid ?_
  have hle := h.le.trans hx
  norm_num [ceiling] at hle ⊢
  linarith

/-- A unit cost is in range: the open amount is not smaller than its last place, so the quotient is
larger than the cost by a known factor at most. -/
theorem isSome_div? {cost base : Decimal} (h : Amount 16 x cost.toRat) (hx : x ≤ 10 * ceiling)
    (hbase : OnGrid 8 base.toRat) (hopen : base.toRat ≠ 0) :
    (cost.div? base.abs).isSome = true := by
  have hpos : 0 < |base.toRat| := abs_pos.mpr hopen
  have hgrid : OnGrid 8 |base.toRat| := by
    rcases abs_choice base.toRat with h | h <;> rw [h]
    · exact hbase
    · exact hbase.neg
  have hstep := hgrid.le_of_pos hpos
  have hle := h.le.trans hx
  have hquotient : |cost.toRat| / |base.toRat| ≤ 10 ^ 20 := by
    rw [div_le_iff₀ hpos]
    norm_num [ceiling] at hle hstep ⊢
    linarith
  have hrange : |cost.toRat / base.abs.toRat| + 1 / 2 < coeffBound := by
    rw [abs_div, toRat_abs, abs_abs]
    norm_num at hquotient ⊢
    linarith
  obtain ⟨d, hd, -⟩ := exists_div?_near (by rwa [toRat_abs, abs_ne_zero]) hrange
  rw [hd]
  rfl

end Amount

end CostBasis
