import CostBasis.Proofs.Position.Amount
import CostBasis.Proofs.Position.Exact

/-!
# Shares

A share `amount * part / whole` is rounded three times: as a product, as a quotient, and to the
places of a released cost.  The first two roundings are far below the last place that is kept, so
within the envelope in which the ledger works a share is less than one unit of that place off.  And
since the amount has no more places than the share, being off by less than a unit cannot take the
share past the amount, nor past zero.

Main statements: `exists_share`, and for what a close releases `exists_closingFee` and
`exists_release`.
-/

namespace CostBasis

open Decimal

namespace Position

variable {amount part whole : Decimal}

/-- The share as a number, before it is rounded. -/
def fraction (amount part whole : Decimal) : ℚ := amount.toRat * part.toRat / whole.toRat

/-- A share is not larger than the amount. -/
theorem abs_fraction_le (amount : Decimal) (hpart : 0 ≤ part.toRat) (hle : part.toRat ≤ whole.toRat)
    (hwhole : 0 < whole.toRat) : |fraction amount part whole| ≤ |amount.toRat| := by
  rw [fraction, abs_div, abs_mul, abs_of_nonneg hpart, abs_of_pos hwhole, div_le_iff₀ hwhole]
  exact mul_le_mul_of_nonneg_left hle (abs_nonneg _)

/-- A share lies between zero and the amount, whichever sign the amount has.  The net cost of a
short position may be negative. -/
theorem fraction_mem_uIcc (amount : Decimal) (hpart : 0 ≤ part.toRat)
    (hle : part.toRat ≤ whole.toRat) (hwhole : 0 < whole.toRat) :
    fraction amount part whole ∈ Set.uIcc 0 amount.toRat := by
  have hratio : 0 ≤ part.toRat / whole.toRat := div_nonneg hpart hwhole.le
  have hratio' : part.toRat / whole.toRat ≤ 1 := (div_le_one hwhole).mpr hle
  rw [fraction, mul_div_assoc, Set.mem_uIcc]
  rcases le_total 0 amount.toRat with h | h
  · exact .inl ⟨mul_nonneg h hratio, mul_le_of_le_one_right h hratio'⟩
  · exact .inr ⟨by nlinarith, mul_nonpos_of_nonpos_of_nonneg h hratio⟩

/-- **A share is less than one unit of its last place off.**  The product and the quotient are each
rounded at a place far below the last one that is kept, and the last rounding takes off half a unit
at most.
Source: `closed_cost` and `close_fee` in `reduce`, which round to sixteen places. -/
theorem share_near (hamount : |amount.toRat| ≤ ceiling) (hpart : 0 ≤ part.toRat)
    (hle : part.toRat ≤ whole.toRat) (hpos : 0 < whole.toRat) (hwhole : OnGrid 8 whole.toRat)
    (hceiling : whole.toRat ≤ ceiling) :
    ∃ d, share amount part whole = .ok d ∧ OnGrid basisScale d.toRat ∧
      |d.toRat - fraction amount part whole| < 1 / 10 ^ basisScale := by
  have hstep : 1 / 10 ^ 8 ≤ whole.toRat := hwhole.le_of_pos hpos
  have hwhole0 : whole.toRat ≠ 0 := hpos.ne'
  have hfraction := abs_fraction_le amount hpart hle hpos
  unfold ceiling at hamount hceiling
  -- The product.
  have hproduct : |amount.toRat * part.toRat| ≤ 10 ^ 11 * whole.toRat := by
    rw [abs_mul, abs_of_nonneg hpart]
    exact mul_le_mul hamount hle hpart (by norm_num)
  have hinRange : |amount.toRat * part.toRat| + 1 / 2 < coeffBound := by
    norm_num at hproduct hceiling ⊢
    linarith
  obtain ⟨product, hmul, hproductNear⟩ := exists_mul_near hinRange
  -- The quotient of the rounded product.
  have hmoved : |product.toRat / whole.toRat - fraction amount part whole| ≤ 1 / 10 ^ 16 / 9 := by
    rw [fraction, ← sub_div, abs_div, abs_of_pos hpos, div_le_iff₀ hpos]
    norm_num at hproductNear hproduct hstep ⊢
    linarith
  have hquotient : |product.toRat / whole.toRat| ≤ 10 ^ 11 + 1 := by
    have htriangle := abs_sub_abs_le_abs_sub (product.toRat / whole.toRat)
      (fraction amount part whole)
    norm_num at hmoved hamount ⊢
    linarith
  obtain ⟨quotient, hdiv, hquotientNear⟩ := exists_div?_near (a := product) hwhole0
    (by norm_num at hquotient ⊢; linarith)
  -- The share.
  have hrange : |quotient.toRat| * 10 ^ basisScale + 1 / 2 < coeffBound := by
    have htriangle := abs_sub_abs_le_abs_sub quotient.toRat (product.toRat / whole.toRat)
    norm_num [basisScale] at hquotient hquotientNear ⊢
    linarith
  obtain ⟨hgrid, hround⟩ := roundTo_near (by decide) hrange
  refine ⟨quotient.roundTo basisScale, ?_, hgrid, ?_⟩
  · have hnot : ¬whole.isZero = true := by rwa [isZero_iff]
    rw [share, hmul, ok_bind, div, if_neg hnot, hdiv]
    rfl
  · calc |(quotient.roundTo basisScale).toRat - fraction amount part whole|
        ≤ |(quotient.roundTo basisScale).toRat - quotient.toRat| +
            (|quotient.toRat - product.toRat / whole.toRat| +
              |product.toRat / whole.toRat - fraction amount part whole|) :=
          (abs_sub_le _ _ _).trans (by gcongr; exact abs_sub_le _ _ _)
      _ ≤ 1 / 2 / 10 ^ basisScale + ((10 ^ 11 + 2) / 10 ^ 28 + 1 / 10 ^ 16 / 9) := by
          gcongr
          exact hquotientNear.trans (div_le_div_of_nonneg_right (by linarith) (by norm_num))
      _ < 1 / 10 ^ basisScale := by norm_num [basisScale]

/-- What a share of an amount comes to: it has the places of a released cost, lies between zero and
the amount, and is less than one unit of its last place off. -/
structure IsShare (amount part whole d : Decimal) : Prop where
  grid : OnGrid basisScale d.toRat
  mem : d.toRat ∈ Set.uIcc 0 amount.toRat
  near : |d.toRat - fraction amount part whole| < 1 / 10 ^ basisScale

/-- **A share lies between zero and the amount.**  Both have the same places, so less than a unit of
the last one does not lead out. -/
theorem mem_uIcc_of_near {d : Decimal} (hpart : 0 ≤ part.toRat) (hle : part.toRat ≤ whole.toRat)
    (hpos : 0 < whole.toRat) (hamount : OnGrid basisScale amount.toRat)
    (hgrid : OnGrid basisScale d.toRat)
    (hnear : |d.toRat - fraction amount part whole| < 1 / 10 ^ basisScale) :
    d.toRat ∈ Set.uIcc 0 amount.toRat := by
  obtain ⟨hbelow, habove⟩ := abs_sub_lt_iff.mp hnear
  have hfraction := fraction_mem_uIcc amount hpart hle hpos
  rw [Set.mem_uIcc] at hfraction ⊢
  rcases hfraction with ⟨h, h'⟩ | ⟨h, h'⟩
  · exact .inl ⟨OnGrid.zero.le_of_lt_add hgrid (by linarith),
      hgrid.le_of_lt_add hamount (by linarith)⟩
  · exact .inr ⟨hamount.le_of_lt_add hgrid (by linarith),
      hgrid.le_of_lt_add OnGrid.zero (by linarith)⟩

/-- A share in the envelope: it can be found, and it is what a share has to be. -/
theorem exists_share (hamount : Amount basisScale ceiling amount.toRat) (hpart : 0 ≤ part.toRat)
    (hle : part.toRat ≤ whole.toRat) (hpos : 0 < whole.toRat)
    (hwhole : Amount 8 ceiling whole.toRat) :
    ∃ d, share amount part whole = .ok d ∧ IsShare amount part whole d := by
  obtain ⟨d, hd, hgrid, hnear⟩ := share_near hamount.le hpart hle hpos hwhole.grid
    ((le_abs_self _).trans hwhole.le)
  exact ⟨d, hd, hgrid, mem_uIcc_of_near hpart hle hpos hamount.grid hgrid hnear, hnear⟩

/-- The share of the whole is the amount itself. -/
theorem isShare_whole (hamount : OnGrid basisScale amount.toRat) (hpart : part.toRat = whole.toRat)
    (hpos : 0 < whole.toRat) : IsShare amount part whole amount where
  grid := hamount
  mem := Set.right_mem_uIcc
  near := by
    rw [fraction, hpart, mul_div_cancel_right₀ _ hpos.ne', sub_self, abs_zero]
    positivity

/-- And nothing else is: the amount has the places of a share, so there is no second one that
near. -/
theorem IsShare.eq_of_whole {d : Decimal} (h : IsShare amount part whole d)
    (hamount : OnGrid basisScale amount.toRat) (hpart : part.toRat = whole.toRat)
    (hpos : 0 < whole.toRat) : d.toRat = amount.toRat := by
  have hnear := h.near
  rw [fraction, hpart, mul_div_cancel_right₀ _ hpos.ne'] at hnear
  obtain ⟨hbelow, habove⟩ := abs_sub_lt_iff.mp hnear
  exact le_antisymm (h.grid.le_of_lt_add hamount (by linarith))
    (hamount.le_of_lt_add h.grid (by linarith))

/-! ## What a close releases -/

variable {p : Position} {t : Trade} {fee closed opened : Decimal}

/-- The fee of a trade that belongs to what it closes is a share of the fee.  If nothing is left of
the trade it is the whole fee. -/
theorem exists_closingFee (hfee : Amount basisScale ceiling fee.toRat)
    (hclosed : 0 ≤ closed.toRat) (hopened : opened.toRat = t.quantity.toRat - closed.toRat)
    (hle : closed.toRat ≤ t.quantity.toRat) (hpos : 0 < t.quantity.toRat)
    (hquantity : Amount 8 ceiling t.quantity.toRat) :
    ∃ d, closingFee t fee closed opened = .ok d ∧ IsShare fee closed t.quantity d := by
  unfold closingFee
  by_cases hzero : opened.isZero = true
  · rw [if_pos hzero]
    have hwhole : closed.toRat = t.quantity.toRat := by
      rw [isZero_iff, hopened] at hzero
      linarith
    exact ⟨fee, rfl, isShare_whole hfee.grid hwhole hpos⟩
  · rw [if_neg hzero]
    exact exists_share hfee hclosed hle hpos hquantity

/-- What is released by closing an amount are shares of the costs.  If nothing is left open they are
the whole costs. -/
theorem exists_release (hbase : Amount 8 ceiling p.base.toRat) (hopen : p.base.toRat ≠ 0)
    (hcost : Amount basisScale ceiling p.costBasis.toRat)
    (hnetCost : Amount basisScale ceiling p.netCostBasis.toRat) (hclosed : 0 ≤ closed.toRat)
    (hle : closed.toRat ≤ |p.base.toRat|) :
    ∃ released, p.release closed = .ok released ∧
      IsShare p.costBasis closed p.base.abs released.1 ∧
      IsShare p.netCostBasis closed p.base.abs released.2 := by
  have hpos : 0 < p.base.abs.toRat := by rwa [toRat_abs, abs_pos]
  unfold release
  by_cases hwhole : closed.isEqual p.base.abs = true
  · rw [if_pos hwhole]
    rw [isEqual_iff] at hwhole
    exact ⟨_, rfl, isShare_whole hcost.grid hwhole hpos, isShare_whole hnetCost.grid hwhole hpos⟩
  · rw [if_neg hwhole]
    rw [← toRat_abs] at hle
    have habs : Amount 8 ceiling p.base.abs.toRat := by
      rw [toRat_abs, p.abs_base]
      exact hbase.sign_mul p.sign_eq_or
    obtain ⟨cost, hshare, hspec⟩ := exists_share hcost hclosed hle hpos habs
    obtain ⟨netCost, hshare', hspec'⟩ := exists_share hnetCost hclosed hle hpos habs
    exact ⟨(cost, netCost), by rw [hshare, hshare']; rfl, hspec, hspec'⟩

/-- Whatever a close has released are shares of the costs. -/
theorem isShare_of_release {released : Decimal × Decimal} (hbase : Amount 8 ceiling p.base.toRat)
    (hopen : p.base.toRat ≠ 0) (hcost : Amount basisScale ceiling p.costBasis.toRat)
    (hnetCost : Amount basisScale ceiling p.netCostBasis.toRat) (hclosed : 0 ≤ closed.toRat)
    (hle : closed.toRat ≤ |p.base.toRat|) (h : p.release closed = .ok released) :
    IsShare p.costBasis closed p.base.abs released.1 ∧
      IsShare p.netCostBasis closed p.base.abs released.2 := by
  obtain ⟨released', hrelease, hshares⟩ := exists_release hbase hopen hcost hnetCost hclosed hle
  obtain rfl : released' = released := Except.ok.inj (hrelease.symm.trans h)
  exact hshares

/-- Whatever part of its fee a reversal has counted to the close is a share of the fee. -/
theorem isShare_of_reversed {d : Decimal} (hfee : Amount basisScale ceiling fee.toRat)
    (hquantity : Amount 8 ceiling t.quantity.toRat) (hlt : |p.base.toRat| < t.quantity.toRat)
    (h : share fee p.base.abs t.quantity = .ok d) : IsShare fee p.base.abs t.quantity d := by
  have hle : p.base.abs.toRat ≤ t.quantity.toRat := by
    rw [toRat_abs]
    exact hlt.le
  have hnonneg : 0 ≤ p.base.abs.toRat := by
    rw [toRat_abs]
    exact abs_nonneg _
  obtain ⟨d', hshare, hspec⟩ :=
    exists_share hfee hnonneg hle ((abs_nonneg _).trans_lt hlt) hquantity
  obtain rfl : d' = d := Except.ok.inj (hshare.symm.trans h)
  exact hspec

end Position

end CostBasis
