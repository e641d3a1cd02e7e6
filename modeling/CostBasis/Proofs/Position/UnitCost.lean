import CostBasis.Proofs.Decimal.Fit
import CostBasis.Proofs.Position.ExactStep

/-!
# The costs of what is open

A position keeps the costs that a trade has led to, and derives the costs of one unit from them, as
long as something is open and both unit costs are in range.  Where nothing is open there are no unit
costs, and the costs are cleared.  They are cleared as well where something is open but one unit of
it costs more than a decimal can say, as when a fee was paid for a speck: such a position has lost
what it cost.

Main statement: `open_costs_kept`, for every trade of every run.
-/

namespace CostBasis

open Decimal

namespace Position

variable {terms : Terms} {p : Position} {base cost netCost : Decimal} {scale : ℕ}

/-- Both costs of one unit of an open amount are in range. -/
def UnitCostsInRange (base cost netCost : Decimal) : Prop :=
  |cost.toRat / base.toRat| + 1 / 2 < coeffBound ∧
    |netCost.toRat / base.toRat| + 1 / 2 < coeffBound

instance : Decidable (UnitCostsInRange base cost netCost) := by
  unfold UnitCostsInRange
  infer_instance

/-- The unit costs of an open amount can be derived exactly if they are in range.
Source: `checked_div`, which has no answer where the quotient is out of range either. -/
theorem hasUnitCosts_iff_of_open (hopen : base.toRat ≠ 0) :
    HasUnitCosts base cost netCost ↔ UnitCostsInRange base cost netCost := by
  have habs : base.abs.toRat ≠ 0 := by rwa [toRat_abs, abs_ne_zero]
  have hquotient : ∀ d : Decimal, |d.toRat / base.abs.toRat| = |d.toRat / base.toRat| := by
    intro d
    rw [toRat_abs, abs_div, abs_abs, ← abs_div]
  unfold HasUnitCosts UnitCostsInRange
  rw [isZero_iff, or_iff_right hopen, isSome_div?_iff habs, isSome_div?_iff habs, hquotient,
    hquotient]

/-- The costs of `q` are those of `p`, and its unit costs are their quotients by the open amount,
each rounded to `scale` places. -/
structure KeepsCosts (p : Position) (scale : ℕ) (q : Position) : Prop where
  cost : q.costBasis = p.costBasis
  netCost : q.netCostBasis = p.netCostBasis
  average : ∃ d, p.costBasis.div? p.base.abs = some d ∧ q.averageCost = d.roundTo scale
  netAverage : ∃ d, p.netCostBasis.div? p.base.abs = some d ∧ q.netAverageCost = d.roundTo scale

/-- Deriving the unit costs keeps the costs if there are unit costs, and each unit cost is a
quotient that was rounded to the places of the market. -/
theorem keepsCosts_refreshAverages (hopen : p.base.toRat ≠ 0)
    (h : HasUnitCosts p.base p.costBasis p.netCostBasis) :
    p.KeepsCosts scale (p.refreshAverages scale) := by
  rw [HasUnitCosts, isZero_iff, or_iff_right hopen] at h
  obtain ⟨c, hc⟩ := Option.isSome_iff_exists.mp h.1
  obtain ⟨n, hn⟩ := Option.isSome_iff_exists.mp h.2
  have heq : p.refreshAverages scale =
      { p with averageCost := c.roundTo scale, netAverageCost := n.roundTo scale } := by
    rw [refreshAverages, hc, hn]
  rw [heq]
  exact ⟨rfl, rfl, ⟨c, hc, rfl⟩, ⟨n, hn, rfl⟩⟩

/-- Deriving the unit costs clears the costs if a unit cost is missing, be it for want of an open
amount or because it is out of range. -/
theorem refreshAverages_of_not_hasUnitCosts
    (h : ¬HasUnitCosts p.base p.costBasis p.netCostBasis) :
    p.refreshAverages scale = p.cleared := by
  unfold refreshAverages
  split
  next c n hc hn =>
    refine absurd (.inr ⟨?_, ?_⟩) h
    · rw [hc]
      rfl
    · rw [hn]
      rfl
  next => rfl

/-- The open amount and the costs of `moved` are those that a trade leads `p` to, before the unit
costs are derived. -/
def Leads (terms : Terms) (p : Position) (t : Trade) (moved : Position) : Prop :=
  ∃ (fee : Decimal) (settled : Position) (gain? : Option Gain),
    terms.feeInQuote t = .ok fee ∧ settled.base = p.base ∧ settled.costBasis = p.costBasis ∧
      settled.netCostBasis = p.netCostBasis ∧ settled.move t fee = .ok (gain?, moved)

/-- A trade moves the position, and derives the unit costs of what it leads to.  The state in
between is what the costs are looked at in. -/
theorem leads_of_apply {t : Trade} {gain? : Option Gain} {q : Position}
    (hq : t.quantity.isPositive = true) (h : p.apply terms t = .ok (gain?, q)) :
    ∃ moved, p.Leads terms t moved ∧ q = moved.refreshAverages terms.market.averageCostScale := by
  obtain ⟨fee, charged, settled, moved, hfee, hcharged, hsettled, hmoved, rfl⟩ := apply_eq_ok hq h
  refine ⟨moved, ⟨fee, settled, gain?, hfee, ?_, ?_, ?_, hmoved⟩, rfl⟩
  all_goals
    obtain ⟨fees, feeTotal, rfl⟩ := chargeFee_eq_ok hcharged
    obtain ⟨quote, rfl⟩ := settle_eq_ok hsettled
    rfl

end Position

/-- **The costs of what is open are kept while a unit of it has a cost in range.**  A run from the
flat position comes to its end.  Each of its trades of a positive quantity leads to an open amount
and to some costs.  If something is open then, and both unit costs are in range, these are the
costs of the position, and the unit costs are derived from them.  If nothing is open, or a unit cost
is out of range, then the position has no costs.
Source: `refresh_average_costs`; specification, section A3. -/
theorem open_costs_kept {terms : Terms} {ts : List Trade} {last : Position} {i : ℕ} {t : Trade}
    (h : Position.flat.afterAll terms ts = .ok last) (ht : ts[i]? = some t)
    (hq : t.quantity.isPositive = true) :
    ∃ p moved q, Position.flat.afterAll terms (ts.take i) = .ok p ∧ p.Leads terms t moved ∧
      Position.flat.afterAll terms (ts.take (i + 1)) = .ok q ∧ q.base = moved.base ∧
      (q.base.toRat ≠ 0 →
        Position.UnitCostsInRange q.base moved.costBasis moved.netCostBasis →
          moved.KeepsCosts terms.market.averageCostScale q) ∧
      (q.base.toRat = 0 ∨ ¬Position.UnitCostsInRange q.base moved.costBasis moved.netCostBasis →
        q.costBasis = .zero ∧ q.netCostBasis = .zero ∧ q.averageCost = .zero ∧
          q.netAverageCost = .zero) := by
  obtain ⟨p, q, hbefore, hafter, hall⟩ := Position.exists_after_of_getElem? h ht
  obtain ⟨⟨gain?, q⟩, happly, rfl⟩ := map_eq_ok.mp hafter
  obtain ⟨moved, hleads, rfl⟩ := Position.leads_of_apply hq happly
  have hbase : (moved.refreshAverages terms.market.averageCostScale).base = moved.base := by
    obtain ⟨_, _, _, _, hrefresh⟩ := moved.refreshAverages_eq terms.market.averageCostScale
    rw [hrefresh]
  refine ⟨p, moved, _, hbefore, hleads, hall, hbase, ?_⟩
  rw [hbase]
  constructor
  · intro hopen hrange
    exact Position.keepsCosts_refreshAverages hopen
      ((Position.hasUnitCosts_iff_of_open hopen).mpr hrange)
  · intro hnone
    by_cases hopen : moved.base.toRat = 0
    · rw [Position.refreshAverages_of_isZero ((isZero_iff _).mpr hopen)]
      exact ⟨rfl, rfl, rfl, rfl⟩
    · rw [Position.refreshAverages_of_not_hasUnitCosts fun hunit =>
        hnone.resolve_left hopen ((Position.hasUnitCosts_iff_of_open hopen).mp hunit)]
      exact ⟨rfl, rfl, rfl, rfl⟩

/-- The fourth trade of the sample history reverses the position, and leaves it costs of its own. -/
theorem open_costs_kept_sampleHistory :
    ∃ (t : Trade) (moved q : Position), sampleHistory[3]? = some t ∧ t.quantity.isPositive = true ∧
      Position.flat.afterAll sampleTerms (sampleHistory.take 4) = .ok q ∧ q.base.toRat = -1 ∧
      moved.KeepsCosts 8 q := by
  have hrun : Yields (Position.flat.afterAll sampleTerms sampleHistory) fun _ =>
      Yields (Position.flat.afterAll sampleTerms (sampleHistory.take 4)) fun q =>
        q.base.toRat = -1 ∧ q.costBasis.toRat = 99 := by decide +kernel
  obtain ⟨last, hlast, q, hq, hbase, hcost⟩ := hrun
  have hfourth : sampleHistory[3]? = some (sampleHistory.get ⟨3, by decide⟩) := rfl
  obtain ⟨p, moved, q', -, -, hq', -, hkept, hcleared⟩ :=
    open_costs_kept hlast hfourth (by decide)
  obtain rfl := Except.ok.inj (hq.symm.trans hq')
  refine ⟨_, moved, q, hfourth, by decide, hq, hbase, hkept ?_ ?_⟩
  · rw [hbase]
    norm_num
  · by_contra hout
    rw [(hcleared (.inr hout)).1, toRat_zero] at hcost
    norm_num at hcost

/-- A speck is bought at a price of one, and a fee of ten is paid for it. -/
def sampleSpeck : Trade :=
  { sampleTrade 1 .buy 1 1 10 with
    quantity := ⟨1, 28, Decimal.one.coeff_lt, by decide, by decide⟩
    quoteQuantity := ⟨1, 28, Decimal.one.coeff_lt, by decide, by decide⟩ }

/-- The costs of something open can be lost: the trade leads to costs, and the position has none. -/
theorem open_costs_lost_sampleSpeck :
    Yields (Position.flat.move sampleSpeck (.ofInt64 10)) fun moved =>
      moved.2.costBasis.toRat = 1 / 10 ^ 28 ∧ moved.2.netCostBasis.toRat = 10 ∧
        Yields (Position.flat.after sampleTerms sampleSpeck) fun q =>
          q.base = moved.2.base ∧ q.base.toRat ≠ 0 ∧ q.costBasis = .zero ∧
            q.netCostBasis = .zero ∧ q.averageCost = .zero ∧ q.netAverageCost = .zero := by
  decide +kernel

end CostBasis
