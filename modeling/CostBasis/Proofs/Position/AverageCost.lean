import CostBasis.Proofs.Decimal.DoubleRounding
import CostBasis.Proofs.Position.UnitCost

/-!
# The cost of one unit

The average cost of a position is the quotient of its cost by the open amount, to the places of the
market.  It is found in two roundings: a quotient of decimals is rounded to what a decimal can say,
and the places of the market are taken from that.  This comes to the exact quotient rounded once,
unless the first rounding has led half-way between two prices.

The costs and the averages of a position belong together after every run, also where they have been
cleared.  So the statement needs to know nothing of the run but its end.

Main statements: `average_cost_rounded_twice`, `average_cost_misrounded_sampleDust`.
-/

namespace CostBasis

open Decimal Rounding

namespace Position

variable {p : Position} {scale : ℕ}

/-- Averages that belong to the costs of an open amount are their quotients by it, rounded.  If the
costs have been cleared, then the averages are zero, and so are the quotients. -/
theorem exists_div?_of_refreshed (hopen : ¬p.base.isZero = true) (h : p.refreshAverages scale = p) :
    (∃ cost, p.costBasis.div? p.base.abs = some cost ∧ p.averageCost = cost.roundTo scale) ∧
      ∃ netCost, p.netCostBasis.div? p.base.abs = some netCost ∧
        p.netAverageCost = netCost.roundTo scale := by
  unfold refreshAverages at h
  split at h
  next cost netCost hcost hnetCost =>
    exact ⟨⟨cost, hcost, (congrArg averageCost h).symm⟩,
      netCost, hnetCost, (congrArg netAverageCost h).symm⟩
  next =>
    -- Costs that have been cleared are divided without a rest.
    have habs : ¬p.base.abs.isZero = true := by
      rwa [isZero_iff, toRat_abs, abs_eq_zero, ← isZero_iff]
    have hcost : p.costBasis = .zero := (congrArg costBasis h).symm
    have hnetCost : p.netCostBasis = .zero := (congrArg netCostBasis h).symm
    have haverage : p.averageCost = .zero := (congrArg averageCost h).symm
    have hnetAverage : p.netAverageCost = .zero := (congrArg netAverageCost h).symm
    rw [hcost, hnetCost, haverage, hnetAverage]
    exact ⟨⟨.zero, zero_div? habs, (roundTo_zero scale).symm⟩,
      .zero, zero_div? habs, (roundTo_zero scale).symm⟩

end Position

/-- **The average costs are the exact quotients, rounded twice.**  A run comes to its end with
something open, on a market with 28 places at most for a price and a quantity together.  Then both
averages are the quotients of the costs by the open amount, rounded at the finest scale there is for
them and then to these places.
Source: `refresh_average_costs` and `average_cost_scale`. -/
theorem average_cost_rounded_twice {terms : Terms} {ts : List Trade} {p : Position} {places : ℕ}
    (h : Position.flat.afterAll terms ts = .ok p) (hopen : p.base.toRat ≠ 0)
    (hplaces : terms.market.pricePrecision.toNat + terms.market.volumePrecision.toNat = places)
    (hle : places ≤ 28) :
    (∃ scale, RoundedTwice (p.costBasis.toRat / |p.base.toRat|) scale places
      p.averageCost.toRat) ∧
    ∃ scale, RoundedTwice (p.netCostBasis.toRat / |p.base.toRat|) scale places
      p.netAverageCost.toRat := by
  have hscale : terms.market.averageCostScale = places := by
    rw [Market.averageCostScale, hplaces]
    exact min_eq_left (hle.trans (by decide))
  have hrefreshed := Position.refreshed_of_afterAll_flat h
  rw [hscale] at hrefreshed
  have hbase : ¬p.base.isZero = true := by rwa [isZero_iff]
  obtain ⟨⟨cost, hcost, haverage⟩, netCost, hnetCost, hnetAverage⟩ :=
    Position.exists_div?_of_refreshed hbase hrefreshed
  rw [← toRat_abs, haverage, hnetAverage]
  exact ⟨exists_roundedTwice_of_div? hcost places, exists_roundedTwice_of_div? hnetCost places⟩

/-- Two purchases of the sample history, by which a unit has cost a third less than 101. -/
theorem average_cost_rounded_twice_sampleHistory :
    ∃ p, Position.flat.afterAll sampleTerms (sampleHistory.take 2) = .ok p ∧ p.base.toRat = 3 ∧
      p.averageCost.toRat = 10066666667 / 10 ^ 8 ∧
      (∃ scale, RoundedTwice (p.costBasis.toRat / |p.base.toRat|) scale 8 p.averageCost.toRat) ∧
      ∃ scale, RoundedTwice (p.netCostBasis.toRat / |p.base.toRat|) scale 8
        p.netAverageCost.toRat := by
  have hrun : Yields (Position.flat.afterAll sampleTerms (sampleHistory.take 2)) fun p =>
      p.base.toRat = 3 ∧ p.averageCost.toRat = 10066666667 / 10 ^ 8 := by decide +kernel
  obtain ⟨p, hp, hbase, haverage⟩ := hrun
  exact ⟨p, hp, hbase, haverage,
    average_cost_rounded_twice hp (hbase ▸ by norm_num) rfl (by decide)⟩

/-! ### A market of very small prices -/

/-- A market with 27 places for a price, and whole quantities. -/
def sampleDustTerms : Terms := ⟨⟨"BTCUSDT", "BTC", "USDT", 27, 0⟩, .unknown⟩

/-- So many of the smallest units of a price. -/
def sampleDustPrice (units : ℤ) : Decimal := (Decimal.ofParts? units 27).getD .zero

/-- Eight units bought at three of the smallest units of a price, and seven at two of them. -/
def sampleDust : List Trade := [
  { sampleTrade 1 .buy 0 8 0 with
    price := sampleDustPrice 3, quoteQuantity := sampleDustPrice 24 },
  { sampleTrade 2 .buy 0 7 0 with
    price := sampleDustPrice 2, quoteQuantity := sampleDustPrice 14 }]

/-- The average cost is not the nearest price: one unit has cost 38 fifteenths of the smallest unit
of a price, which is nearer to three than to two.  The quotient ends in a five at the last of its 28
places, and from there it goes to the even side. -/
theorem average_cost_misrounded_sampleDust :
    sampleDustTerms.market.averageCostScale = 27 ∧
    ∃ p, Position.flat.afterAll sampleDustTerms sampleDust = .ok p ∧ p.base.toRat ≠ 0 ∧
      Position.UnitCostsInRange p.base p.costBasis p.netCostBasis ∧
        Representable (nearest (p.costBasis.toRat / |p.base.toRat|) 27) ∧
          p.averageCost.toRat ≠ nearest (p.costBasis.toRat / |p.base.toRat|) 27 := by
  have hrun : Yields (Position.flat.afterAll sampleDustTerms sampleDust) fun p =>
      p.base.toRat = 15 ∧ p.costBasis.toRat = 38 / 10 ^ 27 ∧
        Position.UnitCostsInRange p.base p.costBasis p.netCostBasis ∧
          p.averageCost.toRat = 2 / 10 ^ 27 := by decide +kernel
  obtain ⟨p, hp, hbase, hcost, hrange, haverage⟩ := hrun
  have hnearest : nearest (p.costBasis.toRat / |p.base.toRat|) 27 = 3 / 10 ^ 27 := by
    rw [hbase, hcost]
    refine nearest_eq_of_lt ⟨3, by norm_num⟩ ?_
    norm_num [abs_lt]
  refine ⟨by decide, p, hp, hbase ▸ by norm_num, hrange, ?_, ?_⟩
  · rw [hnearest]
    exact ⟨sampleDustPrice 3, by decide +kernel⟩
  · rw [hnearest, haverage]
    norm_num

end CostBasis
