import CostBasis.Proofs.Position.Apply
import CostBasis.Proofs.Position.Exact

/-!
# One trade in an exact run

What a trade does to the position where nothing is rounded that need not be.  Its effect on the
amounts and the totals is the same for every trade.  Its effect on the costs and the gains is one of
three: the position is increased, it is reduced (or closed), or it is reversed.

Main statement: `exactStep_of_appliesExactly`.  Everything about exact runs follows from it; no
other proof opens the calculation.
-/

namespace CostBasis

open Decimal

/-! ## Tables of fees in numbers -/

namespace FeeTotals

/-- The total of a currency as a number, if there has been a fee in it. -/
def amount? (totals : FeeTotals) (currency : String) : Option ℚ :=
  totals[currency]?.map Decimal.toRat

/-- The total of one currency is replaced, and those of the others stay. -/
theorem amount?_insert (totals : FeeTotals) (source currency : String) (total : Decimal) :
    FeeTotals.amount? (totals.insert source total) currency =
      if source = currency then some total.toRat else totals.amount? currency := by
  unfold amount?
  rw [Std.ExtTreeMap.getElem?_insert]
  by_cases h : source = currency <;> simp [h]

/-- A currency in which there has been no fee has a total of zero. -/
theorem toRat_getD (totals : FeeTotals) (currency : String) :
    (totals.getD currency .zero).toRat = (totals.amount? currency).getD 0 := by
  unfold amount?
  rw [Std.ExtTreeMap.getD_eq_getD_getElem?]
  cases totals[currency]? <;> simp

end FeeTotals

namespace Position

/-! ## The effect in numbers -/

/-- The effect of a trade on the costs and the gains. -/
inductive CostStep (p : Position) (t : Trade) (fee : Decimal) (q : Position) : Prop
  /-- The position is opened, or the trade goes in its direction. -/
  | increased (side : p.base.toRat = 0 ∨ t.side.sign = p.sign)
      (cost : q.costBasis.toRat = p.costBasis.toRat + t.price.toRat * t.quantity.toRat)
      (netCost : q.netCostBasis.toRat =
        p.netCostBasis.toRat + t.price.toRat * t.quantity.toRat + t.side.sign * fee.toRat)
      (gross : q.grossProfit = p.grossProfit) (net : q.netProfit = p.netProfit)
  /-- The trade closes a part of the position or all of it. -/
  | reduced (released : Decimal × Decimal) (base : p.base.toRat ≠ 0)
      (side : t.side.sign = -p.sign) (amount : t.quantity.toRat ≤ |p.base.toRat|)
      (release : p.release t.quantity = .ok released)
      (cost : q.costBasis.toRat = p.costBasis.toRat - released.1.toRat)
      (netCost : q.netCostBasis.toRat = p.netCostBasis.toRat - released.2.toRat)
      (gross : q.grossProfit.toRat = p.grossProfit.toRat +
        p.sign * (t.price.toRat * t.quantity.toRat - released.1.toRat))
      (net : q.netProfit.toRat = p.netProfit.toRat +
        p.sign * (t.price.toRat * t.quantity.toRat - released.2.toRat) - fee.toRat)
  /-- The trade closes all of the position and opens the other direction. -/
  | reversed (closingFee : Decimal) (base : p.base.toRat ≠ 0)
      (side : t.side.sign = -p.sign) (amount : |p.base.toRat| < t.quantity.toRat)
      (share : share fee p.base.abs t.quantity = .ok closingFee)
      (cost : q.costBasis.toRat = t.price.toRat * (t.quantity.toRat - |p.base.toRat|))
      (netCost : q.netCostBasis.toRat = t.price.toRat * (t.quantity.toRat - |p.base.toRat|) -
        p.sign * (fee.toRat - closingFee.toRat))
      (gross : q.grossProfit.toRat = p.grossProfit.toRat +
        p.sign * (t.price.toRat * |p.base.toRat| - p.costBasis.toRat))
      (net : q.netProfit.toRat = p.netProfit.toRat +
        p.sign * (t.price.toRat * |p.base.toRat| - p.netCostBasis.toRat) - closingFee.toRat)

/-- The effect of a trade. -/
structure ExactStep (p : Position) (t : Trade) (fee : Decimal) (q : Position) : Prop where
  base : q.base.toRat = p.base.toRat + t.side.sign * t.quantity.toRat
  quote : q.quote.toRat = p.quote.toRat - t.side.sign * (t.price.toRat * t.quantity.toRat)
  feeTotal : q.feeTotal.toRat = p.feeTotal.toRat + fee.toRat
  fees : ∀ currency, q.fees.amount? currency =
    if t.fee.isZero = false ∧ t.feeCurrency = currency then
      some ((p.fees.amount? currency).getD 0 + t.fee.toRat)
    else p.fees.amount? currency
  tradeCount : q.tradeCount = p.tradeCount + 1
  /-- Where nothing is open the costs are cleared. -/
  cleared : q.base.toRat = 0 → q.costBasis = .zero ∧ q.netCostBasis = .zero ∧
    q.averageCost = .zero ∧ q.netAverageCost = .zero
  costs : CostStep p t fee q

/-! ## The parts of the calculation -/

section parts

variable {p : Position} {t : Trade} {fee : Decimal}

/-- An exact fee is added to the total in the quote currency, and to the total of its own currency
unless it is zero.
Source: `record_fee`. -/
theorem chargeFee_of_exact (h : p.ChargesExactly t fee) :
    ∃ fees feeTotal, p.chargeFee t fee = .ok { p with fees, feeTotal } ∧
      feeTotal.toRat = p.feeTotal.toRat + fee.toRat ∧
      ∀ currency, fees.amount? currency =
        if t.fee.isZero = false ∧ t.feeCurrency = currency then
          some ((p.fees.amount? currency).getD 0 + t.fee.toRat)
        else p.fees.amount? currency := by
  obtain ⟨hfees, feeTotal, hadd, hvalue, -⟩ := h
  unfold chargeFee
  by_cases hz : t.fee.isZero = true
  · refine ⟨p.fees, feeTotal, ?_, hvalue, fun currency => by simp [hz]⟩
    rw [if_pos hz, hadd]
    rfl
  · obtain ⟨total, hsum, htotal, -⟩ := hfees (by simpa using hz)
    refine ⟨p.fees.insert t.feeCurrency total, feeTotal, ?_, hvalue, fun currency => ?_⟩
    · rw [if_neg hz, FeeTotals.charge, hsum, hadd]
      rfl
    · rw [FeeTotals.amount?_insert, htotal, FeeTotals.toRat_getD]
      by_cases hc : t.feeCurrency = currency <;> simp [hz, hc]

/-- An exact trade takes what it costs from the quote currency, or adds what it brings in, to the
last digit. -/
theorem settle_of_exact (h : p.SettlesExactly t) :
    ∃ quote, p.settle t =
        .ok { p with quote, tradeCount := p.tradeCount + 1, updatedAt := some t.time } ∧
      quote.toRat = p.quote.toRat - t.side.sign * (t.price.toRat * t.quantity.toRat) := by
  obtain ⟨paid, hpaid, hvalue, quote, hquote, hdiff, -⟩ := h
  refine ⟨quote, ?_, ?_⟩
  · rw [settle, hpaid, ok_bind, hquote]
    rfl
  · rw [hdiff, hvalue, Trade.toRat_signedQuantity]
    ring

/-- A trade of a positive quantity extends the position if nothing is open or the side is that of
the position. -/
theorem extendedBy_iff (hq : 0 < t.quantity.toRat) :
    p.extendedBy t = true ↔ p.base.toRat = 0 ∨ t.side.sign = p.sign := by
  unfold extendedBy
  rw [Bool.or_eq_true, isZero_iff, beq_iff_eq, Bool.eq_iff_iff, isPositive_iff, isPositive_iff,
    Trade.toRat_signedQuantity]
  refine or_congr_right' fun hbase => ?_
  have hside : 0 < t.side.sign * t.quantity.toRat ↔ t.side.sign = 1 := by
    rcases t.side.sign_eq_or with h | h <;> rw [h]
    · simp [hq]
    · norm_num [hq.le]
  have hsign : 0 < p.base.toRat ↔ p.sign = 1 := by
    rw [sign_eq]
    rcases lt_or_gt_of_ne hbase with h | h <;> simp [h, h.not_gt]
    norm_num
  rw [hside, hsign]
  rcases t.side.sign_eq_or with ht | ht <;> rcases p.sign_eq_or with hp | hp <;> rw [ht, hp] <;>
    norm_num

/-- A trade that does not extend the position goes against it, and then something is open. -/
theorem side_of_not_extendedBy (hq : 0 < t.quantity.toRat) (h : ¬p.extendedBy t = true) :
    p.base.toRat ≠ 0 ∧ t.side.sign = -p.sign := by
  rw [extendedBy_iff hq, not_or] at h
  obtain ⟨hbase, hside⟩ := h
  refine ⟨hbase, ?_⟩
  rcases t.side.sign_eq_or with ht | ht <;> rcases p.sign_eq_or with hp | hp
  · exact absurd (ht.trans hp.symm) hside
  · rw [ht, hp, neg_neg]
  · rw [ht, hp]
  · exact absurd (ht.trans hp.symm) hside

/-- An exact trade in the direction of the position adds its quantity to what is open and its
notional to both costs; the fee is in the net cost, with the sign of the side.
Source: `extend`. -/
theorem increase_of_exact (hq : 0 < t.quantity.toRat)
    (hside : p.base.toRat = 0 ∨ t.side.sign = p.sign) (h : p.IncreasesExactly t fee) :
    ∃ base costBasis netCostBasis,
      p.increase t fee = .ok { p with base, costBasis, netCostBasis } ∧
      base.toRat = p.base.toRat + t.side.sign * t.quantity.toRat ∧
      base.toRat ≠ 0 ∧ HasUnitCosts base costBasis netCostBasis ∧
      CostStep p t fee { p with base, costBasis, netCostBasis } := by
  obtain ⟨notional, hnotional, vnotional, cost, hcost, vcost, netNotional, hnet, vnet, netCost,
    hnetCost, vnetCost, base, hbase, vbase, hunit⟩ := h
  rw [Direction.toRat_signed, Trade.sign_direction hq, vnotional] at vnet
  rw [Trade.toRat_signedQuantity] at vbase
  refine ⟨base, cost, netCost, ?_, vbase, ?_, hunit, ?_⟩
  · rw [increase, hnotional, ok_bind, hcost, ok_bind, hnet, ok_bind, hnetCost, ok_bind, hbase]
    rfl
  · rw [vbase]
    exact moved_ne_zero_of_extends hq hside
  · refine .increased hside ?_ ?_ rfl rfl
    · rw [vcost, vnotional]
    · rw [vnetCost, vnet]
      ring

/-- Closing all of the position releases both costs as they are, without a share being taken. -/
theorem release_of_whole {closed : Decimal} (h : closed.toRat = |p.base.toRat|) :
    p.release closed = .ok (p.costBasis, p.netCostBasis) := by
  rw [release, if_pos (by rw [isEqual_iff, toRat_abs, h])]
  rfl

/-- A trade that is not larger than the position reduces it: it releases a part of both costs, and
the profit is what it brings in over the part that was released.
Source: `reduce`, where nothing is left of the trade. -/
theorem decrease_of_le (hbase : p.base.toRat ≠ 0) (hside : t.side.sign = -p.sign)
    (hle : t.quantity.toRat ≤ |p.base.toRat|) (h : p.DecreasesExactly t fee) :
    ∃ gain base costBasis netCostBasis grossProfit netProfit,
      p.decrease t fee =
        .ok (gain, { p with base, costBasis, netCostBasis, grossProfit, netProfit }) ∧
      base.toRat = p.base.toRat + t.side.sign * t.quantity.toRat ∧
      (base.toRat = 0 → costBasis.toRat = 0 ∧ netCostBasis.toRat = 0) ∧
      HasUnitCosts base costBasis netCostBasis ∧
      CostStep p t fee { p with base, costBasis, netCostBasis, grossProfit, netProfit } := by
  have hmin : min t.quantity p.base.abs = t.quantity := min_of_le (by rwa [toRat_abs])
  unfold DecreasesExactly EarnsExactly at h
  rw [hmin] at h
  obtain ⟨opened, hopened, vopened, closing, hclosing, openingFee, hopening, -, released, hreleased,
    ⟨proceeds, hproceeds, vproceeds, gross, hgross, vgross, netOfCost, hnetOfCost, vnetOfCost, net,
      hnet, vnet, grossProfit, hgrossProfit, vgrossProfit, netProfit, hnetProfit, vnetProfit, -⟩,
    cost, hcost, vcost, netCost, hnetCost, vnetCost, base, hbase', vbase, hunit⟩ := h
  -- Nothing is opened, so the whole fee belongs to the close.
  have hzero : opened.isZero = true := by rw [isZero_iff, vopened, sub_self]
  have hpositive : ¬opened.isPositive = true := by rw [isPositive_iff, vopened, sub_self]; simp
  rw [closingFee, if_pos hzero] at hclosing
  obtain rfl : fee = closing := Except.ok.inj hclosing
  rw [if_neg hpositive] at hunit
  rw [Trade.toRat_signedQuantity] at vbase
  rw [Direction.toRat_signed] at vnet vgrossProfit
  refine ⟨⟨p.direction.signed gross, net⟩, base, cost, netCost, grossProfit, netProfit, ?_, vbase,
    ?_, hunit, ?_⟩
  · rw [decrease]
    simp only [hmin, hopened, ok_bind, closingFee, if_pos hzero, hopening, hreleased, hproceeds,
      hgross, hnetOfCost, hnet, hcost, hnetCost, hbase', if_neg hpositive, hgrossProfit, hnetProfit,
      pure, Except.pure]
  · -- Nothing is left open only if the trade is as large as the position.
    intro hflat
    rw [vbase] at hflat
    rw [release_of_whole (quantity_eq_of_moved_eq_zero hside hflat)] at hreleased
    obtain rfl := Except.ok.inj hreleased
    exact ⟨by rw [vcost, sub_self], by rw [vnetCost, sub_self]⟩
  · refine .reduced released hbase hside hle hreleased vcost vnetCost ?_ ?_
    · rw [vgrossProfit, vgross, vproceeds]
      rfl
    · rw [vnetProfit, vnet, vnetOfCost, vproceeds, ← add_sub_assoc]
      rfl

/-- A trade that is larger than the position reverses it: it releases all of both costs, and what is
left of the trade has a cost of its own, with the rest of the fee.
Source: `reduce`, where something is left of the trade. -/
theorem decrease_of_lt (hbase : p.base.toRat ≠ 0) (hside : t.side.sign = -p.sign)
    (hlt : |p.base.toRat| < t.quantity.toRat) (h : p.DecreasesExactly t fee) :
    ∃ gain base costBasis netCostBasis grossProfit netProfit,
      p.decrease t fee =
        .ok (gain, { p with base, costBasis, netCostBasis, grossProfit, netProfit }) ∧
      base.toRat = p.base.toRat + t.side.sign * t.quantity.toRat ∧
      base.toRat ≠ 0 ∧ HasUnitCosts base costBasis netCostBasis ∧
      CostStep p t fee { p with base, costBasis, netCostBasis, grossProfit, netProfit } := by
  have hmin : min t.quantity p.base.abs = p.base.abs := min_of_lt (by rwa [toRat_abs])
  unfold DecreasesExactly EarnsExactly at h
  rw [hmin] at h
  obtain ⟨opened, hopened, vopened, closing, hclosing, openingFee, hopening, vopening, released,
    hreleased, ⟨proceeds, hproceeds, vproceeds, gross, hgross, vgross, netOfCost, hnetOfCost,
      vnetOfCost, net, hnet, vnet, grossProfit, hgrossProfit, vgrossProfit, netProfit, hnetProfit,
      vnetProfit, -⟩,
    cost, hcost, -, netCost, hnetCost, -, base, hbase', vbase, hunit⟩ := h
  rw [toRat_abs] at vopened vproceeds
  have hpositive : opened.isPositive = true := by rw [isPositive_iff, vopened]; linarith
  have hzero : ¬opened.isZero = true := by rw [isZero_iff, vopened]; linarith
  rw [if_pos hpositive] at hunit
  obtain ⟨notional, hnotional, vnotional, netNotional, hnetNotional, vnetNotional, hunit⟩ := hunit
  -- All of the position is closed, so both costs are released.
  rw [release_of_whole p.base.toRat_abs] at hreleased
  obtain rfl := Except.ok.inj hreleased
  rw [Trade.toRat_signedQuantity] at vbase
  rw [Direction.toRat_signed] at vnet vgrossProfit
  rw [Direction.toRat_signed, Direction.sign_flip] at vnetNotional
  refine ⟨⟨p.direction.signed gross, net⟩, base, notional, netNotional, grossProfit, netProfit, ?_,
    vbase, ?_, hunit, ?_⟩
  · rw [decrease]
    simp only [hmin, hopened, ok_bind, hclosing, hopening, release_of_whole p.base.toRat_abs,
      hproceeds, hgross, hnetOfCost, hnet, hcost, hnetCost, hbase', if_pos hpositive, opening,
      hnotional, hnetNotional, hgrossProfit, hnetProfit, pure, Except.pure]
  · rw [vbase]
    exact moved_ne_zero_of_lt hside hlt
  · rw [closingFee, if_neg hzero] at hclosing
    refine .reversed closing hbase hside hlt hclosing ?_ ?_ ?_ ?_
    · rw [vnotional, vopened]
    · rw [vnetNotional, vnotional, vopened, vopening, neg_mul, ← sub_eq_add_neg]
      rfl
    · rw [vgrossProfit, vgross, vproceeds]
      rfl
    · rw [vnetProfit, vnet, vnetOfCost, vproceeds, ← add_sub_assoc]
      rfl

end parts

/-! ## The whole trade -/

/-- The position with its costs cleared. -/
def cleared (p : Position) : Position :=
  { p with
    costBasis := .zero, netCostBasis := .zero, averageCost := .zero, netAverageCost := .zero }

/-- Deriving the unit costs clears the costs where nothing is open, and else leaves them.  That the
unit costs are in range is what an exact run has to offer here. -/
theorem refreshAverages_cases (p : Position) (scale : Nat)
    (h : HasUnitCosts p.base p.costBasis p.netCostBasis) :
    p.base.toRat = 0 ∧ p.refreshAverages scale = p.cleared ∨
      p.base.toRat ≠ 0 ∧ ∃ averageCost netAverageCost,
        p.refreshAverages scale = { p with averageCost, netAverageCost } := by
  by_cases hbase : p.base.toRat = 0
  · exact .inl ⟨hbase, refreshAverages_of_isZero ((isZero_iff _).mpr hbase) scale⟩
  · unfold refreshAverages
    refine .inr ⟨hbase, ?_⟩
    rcases h with h | ⟨hcost, hnetCost⟩
    · exact absurd ((isZero_iff _).mp h) hbase
    · obtain ⟨cost, hcost⟩ := Option.isSome_iff_exists.mp hcost
      obtain ⟨netCost, hnetCost⟩ := Option.isSome_iff_exists.mp hnetCost
      rw [hcost, hnetCost]
      exact ⟨_, _, rfl⟩

/-- The effect on the costs and the gains is one on their numbers.  So costs may be put in another
form, as clearing does with a cost of zero. -/
theorem CostStep.congr {p q r : Position} {t : Trade} {fee : Decimal} (h : CostStep p t fee q)
    (hcost : r.costBasis.toRat = q.costBasis.toRat)
    (hnetCost : r.netCostBasis.toRat = q.netCostBasis.toRat)
    (hgross : r.grossProfit = q.grossProfit) (hnet : r.netProfit = q.netProfit) :
    CostStep p t fee r := by
  cases h with
  | increased side cost netCost gross net =>
      exact .increased side (hcost.trans cost) (hnetCost.trans netCost) (hgross.trans gross)
        (hnet.trans net)
  | reduced released base side amount release cost netCost gross net =>
      exact .reduced released base side amount release (hcost.trans cost) (hnetCost.trans netCost)
        (hgross ▸ gross) (hnet ▸ net)
  | reversed closing base side amount share cost netCost gross net =>
      exact .reversed closing base side amount share (hcost.trans cost) (hnetCost.trans netCost)
        (hgross ▸ gross) (hnet ▸ net)

/-- What a trade does to the costs and the gains does not hang on the fees and the quote currency,
which are settled before. -/
theorem CostStep.of_settled {p q : Position} {t : Trade} {fee : Decimal} {fees : FeeTotals}
    {feeTotal quote : Decimal} {tradeCount : Nat} {updatedAt : Option Instant}
    (h : CostStep { p with fees, feeTotal, quote, tradeCount, updatedAt } t fee q) :
    CostStep p t fee q := by
  cases h with
  | increased side cost netCost gross net => exact .increased side cost netCost gross net
  | reduced released base side amount release cost netCost gross net =>
      exact .reduced released base side amount release cost netCost gross net
  | reversed closing base side amount share cost netCost gross net =>
      exact .reversed closing base side amount share cost netCost gross net

/-- Deriving the unit costs does not change what a trade did to the costs and the gains.  Where it
clears the costs they are zero already. -/
theorem CostStep.refreshAverages {p q : Position} {t : Trade} {fee : Decimal} (scale : Nat)
    (h : CostStep p t fee q) (hunit : HasUnitCosts q.base q.costBasis q.netCostBasis)
    (hflat : q.base.toRat = 0 → q.costBasis.toRat = 0 ∧ q.netCostBasis.toRat = 0) :
    CostStep p t fee (q.refreshAverages scale) := by
  rcases q.refreshAverages_cases scale hunit with ⟨hbase, hr⟩ | ⟨-, average, netAverage, hr⟩
  · obtain ⟨hcost, hnetCost⟩ := hflat hbase
    rw [hr]
    exact h.congr (toRat_zero.trans hcost.symm) (toRat_zero.trans hnetCost.symm) rfl rfl
  · rw [hr]
    exact h.congr rfl rfl rfl rfl

/-- What an exact trade makes of the open amount, its costs and the gains.  Of the three cases one
is for a trade that extends the position, and two for one that goes against it, by the size of the
trade. -/
theorem move_of_exact {p : Position} {t : Trade} {fee : Decimal} (hq : 0 < t.quantity.toRat)
    (h : if p.extendedBy t = true then p.IncreasesExactly t fee else p.DecreasesExactly t fee) :
    ∃ gain? base costBasis netCostBasis grossProfit netProfit,
      p.move t fee =
        .ok (gain?, { p with base, costBasis, netCostBasis, grossProfit, netProfit }) ∧
      base.toRat = p.base.toRat + t.side.sign * t.quantity.toRat ∧
      (base.toRat = 0 → costBasis.toRat = 0 ∧ netCostBasis.toRat = 0) ∧
      HasUnitCosts base costBasis netCostBasis ∧
      CostStep p t fee { p with base, costBasis, netCostBasis, grossProfit, netProfit } := by
  unfold move
  by_cases hext : p.extendedBy t = true
  · rw [if_pos hext] at h
    obtain ⟨base, cost, netCost, hincrease, vbase, hne, hunit, hstep⟩ :=
      increase_of_exact hq ((extendedBy_iff hq).mp hext) h
    refine ⟨none, base, cost, netCost, p.grossProfit, p.netProfit, ?_, vbase,
      fun h => absurd h hne, hunit, hstep⟩
    rw [if_pos hext, hincrease]
    rfl
  · rw [if_neg hext] at h
    obtain ⟨hbase, hside⟩ := side_of_not_extendedBy hq hext
    rcases le_or_gt t.quantity.toRat |p.base.toRat| with hle | hlt
    · obtain ⟨gain, base, cost, netCost, gross, net, hdecrease, vbase, hclean, hunit, hstep⟩ :=
        decrease_of_le hbase hside hle h
      refine ⟨some gain, base, cost, netCost, gross, net, ?_, vbase, hclean, hunit, hstep⟩
      rw [if_neg hext, hdecrease]
      rfl
    · obtain ⟨gain, base, cost, netCost, gross, net, hdecrease, vbase, hne, hunit, hstep⟩ :=
        decrease_of_lt hbase hside hlt h
      refine ⟨some gain, base, cost, netCost, gross, net, ?_, vbase, fun h => absurd h hne, hunit,
        hstep⟩
      rw [if_neg hext, hdecrease]
      rfl

/-- A trade without a positive quantity changes nothing, not even the count.
Source: specification, section A3. -/
theorem after_of_not_positive (terms : Terms) (p : Position) {t : Trade}
    (hq : ¬t.quantity.isPositive = true) : p.after terms t = .ok p := by
  rw [after, apply, if_neg hq]
  rfl

/-- **One trade in an exact run.**  It meets no fault, and its effect in numbers is known.
Everything else about exact runs is proved from this effect. -/
theorem exactStep_of_appliesExactly {terms : Terms} {p : Position} {t : Trade}
    (hq : t.quantity.isPositive = true) (h : p.AppliesExactly terms t) :
    ∃ fee q, terms.feeInQuote t = .ok fee ∧ p.after terms t = .ok q ∧ ExactStep p t fee q := by
  obtain ⟨fee, hfee, hcharge, hsettle, hmove⟩ := h hq
  obtain ⟨fees, feeTotal, hcharged, vfeeTotal, vfees⟩ := chargeFee_of_exact hcharge
  let charged : Position := { p with fees, feeTotal }
  obtain ⟨quote, hsettled, vquote⟩ := settle_of_exact (p := charged) (t := t) hsettle
  let settled : Position :=
    { charged with quote, tradeCount := p.tradeCount + 1, updatedAt := some t.time }
  obtain ⟨gain?, base, costBasis, netCostBasis, grossProfit, netProfit, hmoved, vbase, hclean,
    hunit, hstep⟩ := move_of_exact (p := settled) ((isPositive_iff _).mp hq) hmove
  let moved : Position :=
    { settled with base, costBasis, netCostBasis, grossProfit, netProfit }
  refine ⟨fee, moved.refreshAverages terms.market.averageCostScale, hfee, ?_, ?_⟩
  · rw [after, apply, if_pos hq, hfee, ok_bind, hcharged, ok_bind, hsettled, ok_bind, hmoved]
    rfl
  · have hcosts := hstep.refreshAverages terms.market.averageCostScale hunit hclean
    rcases moved.refreshAverages_cases terms.market.averageCostScale hunit with
      ⟨-, hr⟩ | ⟨hne, average, netAverage, hr⟩
    · rw [hr] at hcosts ⊢
      exact ⟨vbase, vquote, vfeeTotal, vfees, rfl, fun _ => ⟨rfl, rfl, rfl, rfl⟩,
        CostStep.of_settled (p := p) hcosts⟩
    · rw [hr] at hcosts ⊢
      exact ⟨vbase, vquote, vfeeTotal, vfees, rfl, fun h => absurd h hne,
        CostStep.of_settled (p := p) hcosts⟩

end Position

end CostBasis
