import CostBasis.Proofs.Position.Conservation
import CostBasis.Proofs.Position.Envelope
import CostBasis.Proofs.Position.Share

/-!
# The bounds of a position

The bounds of a position hang on the totals of its trades, not on their number.  The amounts are
sums over the trades.  The costs never exceed the turnover, since a share lies between zero and the
cost that it is taken from.  And the profits are bounded because profit is conserved: they are the
quote currency and a cost.

A position within such bounds leaves room for the next trade: all that is worked out on the way is
representable, so the trade is applied exactly, and its totals are added to the bounds.

Main statements: `appliesExactly_of_within` and `Within.step`.
-/

namespace CostBasis

open Decimal

namespace Position

/-- The numbers of a position are bounded by totals, and its profits are those that are
conserved. -/
structure Within (turnover volume fees : ℚ) (p : Position) : Prop where
  base : Amount 8 volume p.base.toRat
  quote : Amount 16 turnover p.quote.toRat
  feeTotal : Amount 16 turnover p.feeTotal.toRat
  fees : ∀ currency, Amount 8 fees ((p.fees.amount? currency).getD 0)
  cost : Amount 16 turnover p.costBasis.toRat
  cost_nonneg : 0 ≤ p.costBasis.toRat
  netCost : Amount 16 turnover p.netCostBasis.toRat
  conserves : Conserves p

variable {p q : Position} {t : Trade} {terms : Terms} {fee : Decimal} {T V F T' V' F' : ℚ}

namespace Within

/-- Totals may be raised, so a part of a run can be measured by the totals of the whole. -/
theorem mono (h : p.Within T V F) (hT : T ≤ T') (hV : V ≤ V') (hF : F ≤ F') :
    p.Within T' V' F' where
  base := h.base.mono hV
  quote := h.quote.mono hT
  feeTotal := h.feeTotal.mono hT
  fees currency := (h.fees currency).mono hF
  cost := h.cost.mono hT
  cost_nonneg := h.cost_nonneg
  netCost := h.netCost.mono hT
  conserves := h.conserves

/-- The profit is a sum of two bounded numbers, which are the quote currency and the cost of what is
open. -/
theorem gross (h : p.Within T V F) : Amount 16 (T + T) p.grossProfit.toRat :=
  h.conserves.gross ▸ h.quote.add (h.cost.sign_mul p.sign_eq_or)

/-- The net profit is a sum of three bounded numbers, of which the third is the total of the
fees. -/
theorem net (h : p.Within T V F) : Amount 16 (T + T + T) p.netProfit.toRat :=
  h.conserves.net ▸ (h.quote.add (h.netCost.sign_mul p.sign_eq_or)).sub h.feeTotal

end Within

/-- The flat position is within no totals at all. -/
theorem within_flat : Within 0 0 0 flat := by
  have hzero : ∀ places, Amount places 0 Decimal.zero.toRat := fun places =>
    ⟨toRat_zero ▸ OnGrid.zero, by simp⟩
  have hfees : ∀ currency, Amount 8 0 ((flat.fees.amount? currency).getD 0) := fun currency =>
    ⟨by simpa [flat, FeeTotals.amount?] using OnGrid.zero, by simp [flat, FeeTotals.amount?]⟩
  exact ⟨hzero 8, hzero 16, hzero 16, hfees, hzero 16, toRat_zero.ge, hzero 16, conserves_flat⟩

/-! ## One exact trade -/

/-- Bounded costs of an open amount have bounded unit costs. -/
theorem hasUnitCosts_of_amount {base cost netCost : Decimal} (hbase : OnGrid 8 base.toRat)
    (hcost : Amount 16 T cost.toRat) (hnetCost : Amount 16 T' netCost.toRat)
    (hT : T ≤ 10 * ceiling) (hT' : T' ≤ 10 * ceiling) : HasUnitCosts base cost netCost := by
  by_cases hopen : base.toRat = 0
  · exact .inl ((isZero_iff _).mpr hopen)
  · exact .inr ⟨hcost.isSome_div? hT hbase hopen, hnetCost.isSome_div? hT' hbase hopen⟩

section exact

variable (h : p.Within ceiling ceiling ceiling) (ht : InEnvelope terms [t])
  (hfee : fee.toRat = terms.feeWorth t)

include h ht hfee

/-- The totals of the fees have room for one more fee, in its own currency and in the quote
currency. -/
theorem chargesExactly_of_within : p.ChargesExactly t fee := by
  obtain ⟨-, -, -, hworth, -, hraw⟩ := ht.amounts
  constructor
  · intro _
    refine exactSum_of_representable ?_ fun _ _ => trivial
    rw [FeeTotals.toRat_getD]
    exact (((h.fees t.feeCurrency).add hraw).finer (by norm_num)).representable
      (by norm_num [ceiling])
  · refine exactSum_of_representable ?_ fun _ _ => trivial
    rw [hfee]
    exact (h.feeTotal.add hworth).representable (by norm_num [ceiling])

omit hfee in
/-- The quote currency has room for one more notional, which is a product without rounding. -/
theorem settlesExactly_of_within : p.SettlesExactly t := by
  obtain ⟨-, hnotional, -⟩ := ht.amounts
  have hpaid : Amount 16 ceiling (t.signedQuantity.toRat * t.price.toRat) := by
    rw [Trade.toRat_signedQuantity, mul_assoc, mul_comm t.quantity.toRat]
    exact hnotional.sign_mul t.side.sign_eq_or
  refine exactProduct_of_representable (hpaid.representable (by norm_num [ceiling]))
    fun paid vpaid => ?_
  rw [← vpaid] at hpaid
  exact exactDifference_of_representable
    ((h.quote.sub hpaid).representable (by norm_num [ceiling])) fun _ _ => trivial

/-- The open amount and its costs have room for a trade in the direction of the position, and the
unit costs are in range then. -/
theorem increasesExactly_of_within : p.IncreasesExactly t fee := by
  obtain ⟨-, hnotional, -, hworth, hquantity, -⟩ := ht.amounts
  have hsigned : Amount 16 ceiling ((Direction.of t.signedQuantity).signed fee).toRat := by
    rw [Direction.toRat_signed, hfee]
    exact hworth.sign_mul (Direction.sign_eq_or _)
  have hmoved : Amount 8 ceiling t.signedQuantity.toRat := by
    rw [Trade.toRat_signedQuantity]
    exact hquantity.sign_mul t.side.sign_eq_or
  refine exactProduct_of_representable (hnotional.representable (by norm_num [ceiling]))
    fun notional vnotional => ?_
  have hpaid : Amount 16 ceiling notional.toRat := vnotional ▸ hnotional
  refine exactSum_of_representable ((h.cost.add hpaid).representable (by norm_num [ceiling]))
    fun cost vcost => ?_
  refine exactSum_of_representable ((hpaid.add hsigned).representable (by norm_num [ceiling]))
    fun netNotional vnetNotional => ?_
  have hnetPaid := vnetNotional ▸ hpaid.add hsigned
  refine exactSum_of_representable ((h.netCost.add hnetPaid).representable (by norm_num [ceiling]))
    fun netCost vnetCost => ?_
  refine exactSum_of_representable
    (((h.base.add hmoved).finer (by norm_num)).representable (by norm_num [ceiling]))
    fun base vbase => ?_
  exact hasUnitCosts_of_amount (vbase ▸ (h.base.add hmoved).grid) (vcost ▸ h.cost.add hpaid)
    (vnetCost ▸ h.netCost.add hnetPaid) (by norm_num [ceiling]) (by norm_num [ceiling])

omit h hfee in
/-- The notional of a part of a trade is bounded by that of the whole, and has no more places. -/
theorem amount_price_mul {part : ℚ} (hpart : 0 ≤ part) (hle : part ≤ t.quantity.toRat)
    (hgrid : OnGrid 8 part) : Amount 16 ceiling (t.price.toRat * part) := by
  obtain ⟨hplain, hnotional, -⟩ := ht.amounts
  refine ⟨hplain.price_grid.mul hgrid, ?_⟩
  rw [abs_of_nonneg (mul_nonneg hplain.price_nonneg hpart)]
  calc t.price.toRat * part ≤ t.notional := mul_le_mul_of_nonneg_left hle hplain.price_nonneg
    _ ≤ ceiling := (le_abs_self _).trans hnotional.le

omit hfee in
/-- What a trade closes is a part of the trade and of the position, since it is the smaller one of
the two. -/
theorem closed_bounds {closed : Decimal} (hclosed : closed = min t.quantity p.base.abs) :
    0 ≤ closed.toRat ∧ closed.toRat ≤ t.quantity.toRat ∧ closed.toRat ≤ |p.base.toRat| ∧
      OnGrid 8 closed.toRat := by
  obtain ⟨hplain, -⟩ := ht.amounts
  have habs : OnGrid 8 |p.base.toRat| := p.abs_base ▸ (h.base.sign_mul p.sign_eq_or).grid
  rw [hclosed, toRat_min, toRat_abs]
  refine ⟨le_min hplain.quantity_pos.le (abs_nonneg _), min_le_left _ _, min_le_right _ _, ?_⟩
  rcases min_choice t.quantity.toRat |p.base.toRat| with hmin | hmin <;> rw [hmin]
  · exact hplain.quantity_grid
  · exact habs

omit hfee in
/-- The profits have room for what a close earns, as they are bounded through what is conserved,
however many closes there were. -/
theorem earnsExactly_of_within {closed closing cost netCost : Decimal}
    (hclosed : closed = min t.quantity p.base.abs) (hclosing : Amount 16 ceiling closing.toRat)
    (hcost : Amount 16 ceiling cost.toRat) (hnetCost : Amount 16 ceiling netCost.toRat) :
    p.EarnsExactly t closed closing cost netCost := by
  obtain ⟨hnonneg, hle, -, hgrid⟩ := closed_bounds h ht hclosed
  have hproduct := amount_price_mul ht hnonneg hle hgrid
  refine exactProduct_of_representable (hproduct.representable (by norm_num [ceiling]))
    fun proceeds vproceeds => ?_
  rw [← vproceeds] at hproduct
  refine exactDifference_of_representable
    ((hproduct.sub hcost).representable (by norm_num [ceiling])) fun gross vgross => ?_
  refine exactDifference_of_representable
    ((hproduct.sub hnetCost).representable (by norm_num [ceiling])) fun netOfCost vnetOfCost => ?_
  have hgross := (hproduct.sub hcost).sign_mul p.sign_eq_or
  have hnetOfCost := (hproduct.sub hnetCost).sign_mul p.sign_eq_or
  rw [← vgross] at hgross
  rw [← vnetOfCost] at hnetOfCost
  refine exactDifference_of_representable ?_ fun net vnet => ?_
  · rw [Direction.toRat_signed]
    exact (hnetOfCost.sub hclosing).representable (by norm_num [ceiling])
  have hnet := vnet ▸ Direction.toRat_signed p.direction netOfCost ▸ hnetOfCost.sub hclosing
  refine exactSum_of_representable ?_ fun _ _ => ?_
  · rw [Direction.toRat_signed]
    exact (h.gross.add hgross).representable (by norm_num [ceiling])
  · exact exactSum_of_representable ((h.net.add hnet).representable (by norm_num [ceiling]))
      fun _ _ => trivial

/-- The open amount, its costs and the profits have room for a trade against the position.  The
shares are rounded, but they lie between zero and what they are taken from, and so they are bounded
like it. -/
theorem decreasesExactly_of_within (hopen : p.base.toRat ≠ 0) : p.DecreasesExactly t fee := by
  obtain ⟨hplain, -, -, hworth, hquantity, -⟩ := ht.amounts
  obtain ⟨hnonneg, hle, hle', hgrid⟩ := closed_bounds h ht rfl
  have hfee' : Amount 16 ceiling fee.toRat := hfee ▸ hworth
  have hclosed : Amount 8 ceiling (min t.quantity p.base.abs).toRat :=
    ⟨hgrid, (abs_of_nonneg hnonneg).trans_le (hle.trans ((le_abs_self _).trans hquantity.le))⟩
  have hmoved : Amount 8 ceiling t.signedQuantity.toRat := by
    rw [Trade.toRat_signedQuantity]
    exact hquantity.sign_mul t.side.sign_eq_or
  -- What is opened, and the fee of it.
  refine exactDifference_of_representable
    (((hquantity.sub hclosed).finer (by norm_num)).representable (by norm_num [ceiling]))
    fun opened vopened => ?_
  obtain ⟨closing, hclosing, hshare⟩ := exists_closingFee hfee' hnonneg vopened hle
    hplain.quantity_pos hquantity
  obtain ⟨hclosingFee, hopeningFee⟩ := hfee'.of_mem_uIcc hshare.grid hshare.mem
  refine ⟨closing, hclosing, ?_⟩
  refine exactDifference_of_representable (hopeningFee.representable (by norm_num [ceiling]))
    fun openingFee vopeningFee => ?_
  rw [← vopeningFee] at hopeningFee
  -- What is released, and what is left.
  obtain ⟨released, hreleased, hcost, hnetCost⟩ :=
    exists_release h.base hopen h.cost h.netCost hnonneg hle'
  obtain ⟨hcost, hrest⟩ := h.cost.of_mem_uIcc hcost.grid hcost.mem
  obtain ⟨hnetCost, hnetRest⟩ := h.netCost.of_mem_uIcc hnetCost.grid hnetCost.mem
  refine ⟨released, hreleased, earnsExactly_of_within h ht rfl hclosingFee hcost hnetCost, ?_⟩
  refine exactDifference_of_representable (hrest.representable (by norm_num [ceiling]))
    fun cost vcost => ?_
  refine exactDifference_of_representable (hnetRest.representable (by norm_num [ceiling]))
    fun netCost vnetCost => ?_
  refine exactSum_of_representable
    (((h.base.add hmoved).finer (by norm_num)).representable (by norm_num [ceiling]))
    fun base vbase => ?_
  have hbase : OnGrid 8 base.toRat := vbase ▸ (h.base.add hmoved).grid
  by_cases hpositive : opened.isPositive = true
  · -- The rest of the trade opens the other direction.
    rw [if_pos hpositive]
    have hproduct : Amount 16 ceiling (t.price.toRat * opened.toRat) := by
      refine amount_price_mul ht ((isPositive_iff _).mp hpositive).le ?_ ?_
      · rw [vopened]
        linarith
      · exact vopened ▸ (hquantity.sub hclosed).grid
    refine exactProduct_of_representable (hproduct.representable (by norm_num [ceiling]))
      fun notional vnotional => ?_
    rw [← vnotional] at hproduct
    have hsum := hproduct.add (hopeningFee.sign_mul (Direction.sign_eq_or p.direction.flip))
    rw [← Direction.toRat_signed] at hsum
    refine exactSum_of_representable (hsum.representable (by norm_num [ceiling]))
      fun netNotional vnetNotional => ?_
    exact hasUnitCosts_of_amount hbase hproduct (vnetNotional ▸ hsum) (by norm_num [ceiling])
      (by norm_num [ceiling])
  · rw [if_neg hpositive]
    exact hasUnitCosts_of_amount hbase (vcost ▸ hrest) (vnetCost ▸ hnetRest) (by norm_num [ceiling])
      (by norm_num [ceiling])

omit hfee in
/-- **In the envelope a trade is applied exactly.**  Nothing is rounded but the shares. -/
theorem appliesExactly_of_within : p.AppliesExactly terms t := by
  obtain ⟨hplain, -, hworth, -⟩ := ht.amounts
  obtain ⟨fee, hvalue, hfee⟩ := hplain.exists_feeInQuote hworth
  intro _
  refine ⟨fee, hvalue, chargesExactly_of_within h ht hfee, settlesExactly_of_within h ht, ?_⟩
  by_cases hextended : p.extendedBy t = true
  · rw [if_pos hextended]
    exact increasesExactly_of_within h ht hfee
  · rw [if_neg hextended]
    exact decreasesExactly_of_within h ht hfee
      (side_of_not_extendedBy hplain.quantity_pos hextended).1

end exact

/-! ## The bounds after a trade -/

section step

variable (h : p.Within T V F) (hT : T ≤ ceiling) (hV : V ≤ ceiling) (ht : InEnvelope terms [t])
  (hfee : fee.toRat = terms.feeWorth t) (hstep : p.ExactStep t fee q)

include h hT hV ht hfee hstep

/-- The costs after a trade are bounded by the turnover: what is released lies between zero and the
cost, and what is opened is a part of the notional. -/
theorem Within.costs_step :
    Amount 16 (T + (t.notional + terms.feeWorth t)) q.costBasis.toRat ∧ 0 ≤ q.costBasis.toRat ∧
      Amount 16 (T + (t.notional + terms.feeWorth t)) q.netCostBasis.toRat := by
  obtain ⟨hplain, -, -, hworth, hquantity, -⟩ := ht.amounts
  have hT0 : 0 ≤ T := (abs_nonneg _).trans h.quote.le
  have hw0 := hplain.feeWorth_nonneg
  have hn0 := hplain.notional_nonneg
  have hnotional : Amount 16 t.notional t.notional :=
    ⟨hplain.notional_grid, (abs_of_nonneg hn0).le⟩
  have hfee' : Amount 16 (terms.feeWorth t) fee.toRat :=
    ⟨hfee ▸ hplain.feeWorth_grid, by rw [hfee, abs_of_nonneg hw0]⟩
  cases hstep.costs with
  | increased side cost netCost gross net =>
      rw [cost, netCost]
      refine ⟨(h.cost.add hnotional).mono (by linarith), add_nonneg h.cost_nonneg hn0, ?_⟩
      exact ((h.netCost.add hnotional).add (hfee'.sign_mul t.side.sign_eq_or)).mono (by linarith)
  | reduced released hopen side amount hrelease cost netCost gross net =>
      obtain ⟨hcost, hnetCost⟩ := isShare_of_release (h.base.mono hV) hopen (h.cost.mono hT)
        (h.netCost.mono hT) hplain.quantity_pos.le amount hrelease
      have hmem := hcost.mem
      rw [Set.uIcc_of_le h.cost_nonneg] at hmem
      rw [cost, netCost]
      exact ⟨(h.cost.of_mem_uIcc hcost.grid hcost.mem).2.mono (by linarith),
        sub_nonneg.mpr hmem.2, (h.netCost.of_mem_uIcc hnetCost.grid hnetCost.mem).2.mono
          (by linarith)⟩
  | reversed closingFee hopen side amount hshare cost netCost gross net =>
      have habs : Amount 8 V |p.base.toRat| := p.abs_base ▸ h.base.sign_mul p.sign_eq_or
      have hpart : 0 ≤ t.quantity.toRat - |p.base.toRat| := by linarith
      have hspec := isShare_of_reversed (hfee ▸ hworth) hquantity amount hshare
      have hopened :
          Amount 16 t.notional (t.price.toRat * (t.quantity.toRat - |p.base.toRat|)) := by
        refine ⟨hplain.price_grid.mul (hplain.quantity_grid.sub habs.grid), ?_⟩
        rw [abs_of_nonneg (mul_nonneg hplain.price_nonneg hpart)]
        exact mul_le_mul_of_nonneg_left (by linarith [habs.le, abs_nonneg p.base.toRat])
          hplain.price_nonneg
      rw [cost, netCost]
      refine ⟨hopened.mono (by linarith), mul_nonneg hplain.price_nonneg hpart, ?_⟩
      exact (hopened.sub ((hfee'.of_mem_uIcc hspec.grid hspec.mem).2.sign_mul p.sign_eq_or)).mono
        (by linarith)

/-- **The bounds after a trade are those before it with the trade added.**  The profits need no
bound of their own to be added to: they are what is conserved. -/
theorem Within.step : q.Within (T + (t.notional + terms.feeWorth t)) (V + t.quantity.toRat)
    (F + t.fee.toRat) := by
  obtain ⟨hplain, -⟩ := ht.amounts
  obtain ⟨hcost, hnonneg, hnetCost⟩ := h.costs_step hT hV ht hfee hstep
  have hw0 := hplain.feeWorth_nonneg
  have hn0 := hplain.notional_nonneg
  have hquantity : Amount 8 t.quantity.toRat t.quantity.toRat :=
    ⟨hplain.quantity_grid, (abs_of_nonneg hplain.quantity_pos.le).le⟩
  have hnotional : Amount 16 t.notional (t.price.toRat * t.quantity.toRat) :=
    ⟨hplain.notional_grid, (abs_of_nonneg hn0).le⟩
  have hraw : Amount 8 t.fee.toRat t.fee.toRat :=
    ⟨hplain.fee_grid, (abs_of_nonneg hplain.fee_nonneg).le⟩
  constructor
  · exact hstep.base ▸ h.base.add (hquantity.sign_mul t.side.sign_eq_or)
  · exact hstep.quote ▸ (h.quote.sub (hnotional.sign_mul t.side.sign_eq_or)).mono (by linarith)
  · rw [hstep.feeTotal, hfee]
    exact (h.feeTotal.add ⟨hplain.feeWorth_grid, (abs_of_nonneg hw0).le⟩).mono (by linarith)
  · intro currency
    rw [hstep.fees]
    split
    · exact (h.fees currency).add hraw
    · exact (h.fees currency).mono (by linarith [hplain.fee_nonneg])
  · exact hcost
  · exact hnonneg
  · exact hnetCost
  · exact h.conserves.step hplain.quantity_pos hstep

end step

end Position

end CostBasis
