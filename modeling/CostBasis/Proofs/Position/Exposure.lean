import CostBasis.Proofs.Decimal.Fit
import CostBasis.Proofs.Position.Apply

/-!
# What is open, and the totals

Of a position some fields say what is open and what it cost.  The others are totals of all trades so
far.  What a trade earns, and what it leaves open, depends on the first fields alone.  So two
positions in which the same is open go on in the same way, whatever came before, as long as no total
runs out of range.

Main statements: `apply_iff_hasRoom` for one trade, `SameExposure.goes_on` for a run.
-/

namespace CostBasis

open Decimal

namespace Position

variable {terms : Terms} {p q p' : Position} {t : Trade} {fee : Decimal}

/-- The same is open in both positions, at the same costs. -/
structure SameExposure (p q : Position) : Prop where
  base : p.base = q.base
  costBasis : p.costBasis = q.costBasis
  netCostBasis : p.netCostBasis = q.netCostBasis
  averageCost : p.averageCost = q.averageCost
  netAverageCost : p.netAverageCost = q.netAverageCost

/-- No total of the position runs out of range by a trade that earns `gain?`. -/
structure HasRoom (terms : Terms) (p : Position) (t : Trade) (gain? : Option Gain) : Prop where
  fees : t.fee.isZero = false →
    Yields ((p.fees.getD t.feeCurrency .zero).add t.fee) fun _ => True
  feeTotal : ∀ fee, terms.feeInQuote t = .ok fee → Yields (p.feeTotal.add fee) fun _ => True
  quote : ∀ paid, t.signedQuantity.mul t.price = .ok paid →
    Yields (p.quote.sub paid) fun _ => True
  grossProfit : ∀ gain ∈ gain?, Yields (p.grossProfit.add gain.gross) fun _ => True
  netProfit : ∀ gain ∈ gain?, Yields (p.netProfit.add gain.net) fun _ => True

/-- The same exposure is the same from either side. -/
theorem SameExposure.symm (h : p.SameExposure q) : q.SameExposure p :=
  ⟨h.base.symm, h.costBasis.symm, h.netCostBasis.symm, h.averageCost.symm, h.netAverageCost.symm⟩

/-- The same exposure can be passed on. -/
theorem SameExposure.trans {r : Position} (h : p.SameExposure q) (h' : q.SameExposure r) :
    p.SameExposure r :=
  ⟨h.base.trans h'.base, h.costBasis.trans h'.costBasis, h.netCostBasis.trans h'.netCostBasis,
    h.averageCost.trans h'.averageCost, h.netAverageCost.trans h'.netAverageCost⟩

/-- Where nothing is open there is no difference to the position before any trade. -/
theorem sameExposure_flat (hbase : p.base = .zero)
    (h : p.costBasis = .zero ∧ p.netCostBasis = .zero ∧ p.averageCost = .zero ∧
      p.netAverageCost = .zero) : p.SameExposure flat :=
  ⟨hbase, h.1, h.2.1, h.2.2.1, h.2.2.2⟩

/-! ## What depends on the exposure alone -/

/-- Positions with the same exposure have the same direction. -/
theorem SameExposure.direction (h : p.SameExposure q) : p.direction = q.direction := by
  rw [Position.direction, Position.direction, h.base]

/-- A close releases the same costs of both. -/
theorem SameExposure.release (h : p.SameExposure q) (closed : Decimal) :
    p.release closed = q.release closed := by
  rw [Position.release, Position.release, h.base, h.costBasis, h.netCostBasis]

/-- What the open amount would earn is the same at every price. -/
theorem SameExposure.unrealizedProfit (h : p.SameExposure q) (price : Decimal) :
    p.unrealizedProfit price = q.unrealizedProfit price := by
  rw [Position.unrealizedProfit, Position.unrealizedProfit, h.base, h.costBasis, h.direction]

/-- A trade extends both or goes against both. -/
theorem SameExposure.extendedBy (h : p.SameExposure q) (t : Trade) :
    p.extendedBy t = q.extendedBy t := by
  rw [Position.extendedBy, Position.extendedBy, h.base]

/-- The unit costs that are derived from both are the same. -/
theorem SameExposure.refreshAverages (h : p.SameExposure q) (scale : ℕ) :
    (p.refreshAverages scale).SameExposure (q.refreshAverages scale) := by
  unfold Position.refreshAverages
  rw [h.base, h.costBasis, h.netCostBasis]
  split
  · exact ⟨rfl, rfl, rfl, rfl, rfl⟩
  · exact ⟨rfl, rfl, rfl, rfl, rfl⟩

/-! ## The steps of a trade -/

/-- A fee is charged if the totals have room for it; what is open plays no part.  A fee of zero
needs room in the total in the quote currency only. -/
theorem exists_chargeFee
    (hfees : t.fee.isZero = false →
      Yields ((q.fees.getD t.feeCurrency .zero).add t.fee) fun _ => True)
    (htotal : Yields (q.feeTotal.add fee) fun _ => True) :
    ∃ fees feeTotal, q.chargeFee t fee = .ok { q with fees, feeTotal } := by
  obtain ⟨feeTotal, htotal, -⟩ := htotal
  unfold chargeFee
  by_cases hz : t.fee.isZero = true
  · refine ⟨q.fees, feeTotal, ?_⟩
    rw [if_pos hz, htotal]
    rfl
  · obtain ⟨total, hsum, -⟩ := hfees (by simpa using hz)
    refine ⟨q.fees.insert t.feeCurrency total, feeTotal, ?_⟩
    rw [if_neg hz, FeeTotals.charge, hsum, htotal]
    rfl

/-- A trade is settled if the quote currency has room for it. -/
theorem exists_settle (hp : p.settle t = .ok p')
    (hquote : ∀ paid, t.signedQuantity.mul t.price = .ok paid →
      Yields (q.quote.sub paid) fun _ => True) :
    ∃ quote, q.settle t =
      .ok { q with quote, tradeCount := q.tradeCount + 1, updatedAt := some t.time } := by
  obtain ⟨paid, hpaid, -⟩ := bind_eq_ok.mp hp
  obtain ⟨quote, hquote, -⟩ := hquote paid hpaid
  refine ⟨quote, ?_⟩
  rw [settle, hpaid, ok_bind, hquote]
  rfl

/-- What extends the one position extends the other one, to the same exposure; no total is
touched. -/
theorem SameExposure.exists_increase (h : p.SameExposure q) (hp : p.increase t fee = .ok p') :
    ∃ q', q.increase t fee = .ok q' ∧ p'.SameExposure q' := by
  obtain ⟨notional, hnotional, hp⟩ := bind_eq_ok.mp hp
  obtain ⟨cost, hcost, hp⟩ := bind_eq_ok.mp hp
  obtain ⟨netNotional, hnetNotional, hp⟩ := bind_eq_ok.mp hp
  obtain ⟨netCost, hnetCost, hp⟩ := bind_eq_ok.mp hp
  obtain ⟨base, hbase, hp⟩ := bind_eq_ok.mp hp
  obtain rfl := Except.ok.inj hp
  rw [h.costBasis] at hcost
  rw [h.netCostBasis] at hnetCost
  rw [h.base] at hbase
  refine ⟨{ q with costBasis := cost, netCostBasis := netCost, base }, ?_,
    ⟨rfl, rfl, rfl, h.averageCost, h.netAverageCost⟩⟩
  rw [increase, hnotional, ok_bind, hcost, ok_bind, hnetNotional, ok_bind, hnetCost, ok_bind, hbase]
  rfl

/-- What goes against the one position goes against the other one, if its profits have room.  It
earns the same, and leads to the same exposure. -/
theorem SameExposure.exists_decrease {gain : Gain} (h : p.SameExposure q)
    (hp : p.decrease t fee = .ok (gain, p'))
    (hgross : Yields (q.grossProfit.add gain.gross) fun _ => True)
    (hnet : Yields (q.netProfit.add gain.net) fun _ => True) :
    ∃ q', q.decrease t fee = .ok (gain, q') ∧ p'.SameExposure q' := by
  obtain ⟨opened, hopened, hp⟩ := bind_eq_ok.mp hp
  obtain ⟨closingFee, hclosing, hp⟩ := bind_eq_ok.mp hp
  obtain ⟨openingFee, hopening, hp⟩ := bind_eq_ok.mp hp
  obtain ⟨released, hreleased, hp⟩ := bind_eq_ok.mp hp
  obtain ⟨proceeds, hproceeds, hp⟩ := bind_eq_ok.mp hp
  obtain ⟨gross, hgross', hp⟩ := bind_eq_ok.mp hp
  obtain ⟨netOfCost, hnetOfCost, hp⟩ := bind_eq_ok.mp hp
  obtain ⟨net, hnet', hp⟩ := bind_eq_ok.mp hp
  obtain ⟨cost, hcost, hp⟩ := bind_eq_ok.mp hp
  obtain ⟨netCost, hnetCost, hp⟩ := bind_eq_ok.mp hp
  obtain ⟨base, hbase, hp⟩ := bind_eq_ok.mp hp
  rw [h.base] at hopened hclosing hreleased hproceeds hbase
  rw [h.costBasis] at hcost
  rw [h.netCostBasis] at hnetCost
  rw [h.release] at hreleased
  rw [h.direction] at hnet' hp
  obtain ⟨grossProfit, hgross, -⟩ := hgross
  obtain ⟨netProfit, hnet, -⟩ := hnet
  -- The costs come from here or from what is opened; the rest is the same.
  split at hp
  next hpositive =>
    obtain ⟨costs, hcosts, hp⟩ := bind_eq_ok.mp hp
    obtain ⟨_, -, hp⟩ := bind_eq_ok.mp hp
    obtain ⟨_, -, hp⟩ := bind_eq_ok.mp hp
    obtain ⟨rfl, rfl⟩ := Prod.mk.inj (Except.ok.inj hp)
    refine ⟨{ q with base, costBasis := costs.1, netCostBasis := costs.2, grossProfit, netProfit },
      ?_, ⟨rfl, rfl, rfl, h.averageCost, h.netAverageCost⟩⟩
    rw [decrease]
    simp only [hopened, ok_bind, hclosing, hopening, hreleased, hproceeds, hgross', hnetOfCost,
      hnet', hcost, hnetCost, hbase, if_pos hpositive, hcosts, hgross, hnet, pure, Except.pure]
  next hpositive =>
    obtain ⟨costs, hcosts, hp⟩ := bind_eq_ok.mp hp
    obtain ⟨_, -, hp⟩ := bind_eq_ok.mp hp
    obtain ⟨_, -, hp⟩ := bind_eq_ok.mp hp
    obtain rfl := Except.ok.inj hcosts
    obtain ⟨rfl, rfl⟩ := Prod.mk.inj (Except.ok.inj hp)
    refine ⟨{ q with base, costBasis := cost, netCostBasis := netCost, grossProfit, netProfit },
      ?_, ⟨rfl, rfl, rfl, h.averageCost, h.netAverageCost⟩⟩
    rw [decrease]
    simp only [hopened, ok_bind, hclosing, hopening, hreleased, hproceeds, hgross', hnetOfCost,
      hnet', hcost, hnetCost, hbase, if_neg hpositive, hgross, hnet, pure, Except.pure]

/-- A trade moves both in the same way, if the profits of the other one have room.  A trade that
extends the position needs none. -/
theorem SameExposure.exists_move {gain? : Option Gain} (h : p.SameExposure q)
    (hp : p.move t fee = .ok (gain?, p'))
    (hgross : ∀ gain ∈ gain?, Yields (q.grossProfit.add gain.gross) fun _ => True)
    (hnet : ∀ gain ∈ gain?, Yields (q.netProfit.add gain.net) fun _ => True) :
    ∃ q', q.move t fee = .ok (gain?, q') ∧ p'.SameExposure q' := by
  cases moves_of_move hp with
  | extended hextends hincrease =>
      obtain ⟨q', hq', hsame⟩ := h.exists_increase hincrease
      refine ⟨q', ?_, hsame⟩
      rw [h.extendedBy] at hextends
      rw [move, if_pos hextends, hq']
      rfl
  | @against gain _ hagainst hdecrease =>
      obtain ⟨q', hq', hsame⟩ := h.exists_decrease hdecrease (hgross gain rfl) (hnet gain rfl)
      refine ⟨q', ?_, hsame⟩
      rw [h.extendedBy] at hagainst
      rw [move, if_neg hagainst, hq']
      rfl

/-! ## The whole trade -/

/-- **A trade does the same wherever the same is open.**  Of two positions with the same exposure
the first one takes a trade.  The second one takes it as well if its totals have room: it earns the
same, and the same is open again. -/
theorem exists_apply_of_sameExposure {gain? : Option Gain} (h : p.SameExposure q)
    (hp : p.apply terms t = .ok (gain?, p')) (hroom : q.HasRoom terms t gain?) :
    ∃ q', q.apply terms t = .ok (gain?, q') ∧ p'.SameExposure q' := by
  by_cases hq : t.quantity.isPositive = true
  · obtain ⟨fee, charged, settled, moved, hfee, hcharged, hsettled, hmoved, rfl⟩ :=
      apply_eq_ok hq hp
    obtain ⟨fees, feeTotal, hcharge⟩ := exists_chargeFee hroom.fees (hroom.feeTotal fee hfee)
    obtain ⟨quote, hsettle⟩ :=
      exists_settle (q := { q with fees, feeTotal }) hsettled hroom.quote
    obtain ⟨fees', feeTotal', rfl⟩ := chargeFee_eq_ok hcharged
    obtain ⟨quote', rfl⟩ := settle_eq_ok hsettled
    have hsettledSame : SameExposure
        { p with fees := fees', feeTotal := feeTotal', quote := quote'
                 tradeCount := p.tradeCount + 1, updatedAt := some t.time }
        { q with fees, feeTotal, quote
                 tradeCount := q.tradeCount + 1, updatedAt := some t.time } :=
      ⟨h.base, h.costBasis, h.netCostBasis, h.averageCost, h.netAverageCost⟩
    obtain ⟨moved', hmove, hsame⟩ :=
      hsettledSame.exists_move hmoved hroom.grossProfit hroom.netProfit
    refine ⟨_, ?_, hsame.refreshAverages _⟩
    rw [apply, if_pos hq, hfee, ok_bind, hcharge, ok_bind, hsettle, ok_bind, hmove]
    rfl
  · rw [apply, if_neg hq] at hp ⊢
    obtain ⟨rfl, rfl⟩ := Prod.mk.inj (Except.ok.inj hp)
    exact ⟨q, rfl, h⟩

/-- A trade that is taken leaves every total in range.  So the room is not only enough but also
needed. -/
theorem hasRoom_of_apply {gain? : Option Gain} (hq : t.quantity.isPositive = true)
    (h : p.apply terms t = .ok (gain?, q)) : p.HasRoom terms t gain? := by
  have hearns := earns_of_apply h
  obtain ⟨fee, charged, settled, moved, hfee, hcharged, hsettled, -, -⟩ := apply_eq_ok hq h
  have hquote : charged.quote = p.quote := by
    obtain ⟨_, _, rfl⟩ := chargeFee_eq_ok hcharged
    rfl
  have hcharge : (t.fee.isZero = false →
      Yields ((p.fees.getD t.feeCurrency .zero).add t.fee) fun _ => True) ∧
        Yields (p.feeTotal.add fee) fun _ => True := by
    unfold chargeFee at hcharged
    split at hcharged
    next hz =>
      obtain ⟨_, -, hcharged⟩ := bind_eq_ok.mp hcharged
      obtain ⟨total, htotal, -⟩ := bind_eq_ok.mp hcharged
      exact ⟨by simp [hz], total, htotal, trivial⟩
    next =>
      obtain ⟨_, hfees, hcharged⟩ := bind_eq_ok.mp hcharged
      obtain ⟨total, htotal, -⟩ := bind_eq_ok.mp hcharged
      obtain ⟨sum, hsum, -⟩ := map_eq_ok.mp hfees
      exact ⟨fun _ => ⟨sum, hsum, trivial⟩, total, htotal, trivial⟩
  constructor
  · exact hcharge.1
  · intro fee' hfee'
    obtain rfl := Except.ok.inj (hfee.symm.trans hfee')
    exact hcharge.2
  · intro paid hpaid
    obtain ⟨paid', hpaid', hsettled⟩ := bind_eq_ok.mp hsettled
    obtain rfl := Except.ok.inj (hpaid.symm.trans hpaid')
    obtain ⟨quote, hsub, -⟩ := bind_eq_ok.mp hsettled
    exact ⟨quote, hquote ▸ hsub, trivial⟩
  · rintro gain rfl
    exact ⟨_, hearns.1, trivial⟩
  · rintro gain rfl
    exact ⟨_, hearns.2, trivial⟩

/-! ## Two positions with the same exposure

Both are compared with a third one, which has no totals yet, and so has room for any trade. -/

/-- The position with its totals emptied. -/
def emptied (p : Position) : Position :=
  { flat with
    base := p.base, costBasis := p.costBasis, netCostBasis := p.netCostBasis
    averageCost := p.averageCost, netAverageCost := p.netAverageCost }

/-- Emptying the totals leaves what is open. -/
theorem sameExposure_emptied (p : Position) : p.SameExposure p.emptied := ⟨rfl, rfl, rfl, rfl, rfl⟩

/-- With their totals emptied, positions with the same exposure are one and the same. -/
theorem SameExposure.emptied_eq (h : p.SameExposure q) : p.emptied = q.emptied := by
  unfold emptied
  rw [h.base, h.costBasis, h.netCostBasis, h.averageCost, h.netAverageCost]

/-- Empty totals have room for any trade.  So they can stand for totals of which nothing is
known. -/
theorem hasRoom_emptied (terms : Terms) (p : Position) (t : Trade) (gain? : Option Gain) :
    p.emptied.HasRoom terms t gain? := by
  have hadd : ∀ d : Decimal, Yields (Decimal.zero.add d) fun _ => True := by
    intro d
    obtain ⟨sum, hsum, -⟩ := exactSum_of_representable (a := .zero) (b := d) (P := fun _ => True)
      ⟨d, by simp⟩ fun _ _ => trivial
    exact ⟨sum, hsum, trivial⟩
  have hsub : ∀ d : Decimal, Yields (Decimal.zero.sub d) fun _ => True := by
    intro d
    obtain ⟨difference, hdifference, -⟩ :=
      exactDifference_of_representable (a := .zero) (b := d) (P := fun _ => True)
        ⟨-d, by simp⟩ fun _ _ => trivial
    exact ⟨difference, hdifference, trivial⟩
  refine ⟨fun _ => ?_, fun fee _ => hadd fee, fun paid _ => hsub paid, fun gain _ => hadd _,
    fun gain _ => hadd _⟩
  have hnone : p.emptied.fees.getD t.feeCurrency .zero = .zero := Std.ExtTreeMap.getD_empty
  rw [hnone]
  exact hadd _

/-- Two positions with the same exposure that take a trade earn the same, and the same is open
again. -/
theorem SameExposure.apply {gain? other? : Option Gain} {q' : Position} (h : p.SameExposure q)
    (hp : p.apply terms t = .ok (gain?, p')) (hq : q.apply terms t = .ok (other?, q')) :
    gain? = other? ∧ p'.SameExposure q' := by
  obtain ⟨r, hr, hpr⟩ := exists_apply_of_sameExposure p.sameExposure_emptied hp
    (hasRoom_emptied terms p t gain?)
  obtain ⟨r', hr', hqr⟩ := exists_apply_of_sameExposure q.sameExposure_emptied hq
    (hasRoom_emptied terms q t other?)
  rw [h.emptied_eq] at hr
  obtain ⟨rfl, rfl⟩ := Prod.mk.inj (Except.ok.inj (hr.symm.trans hr'))
  exact ⟨rfl, hpr.trans hqr.symm⟩

/-- **Only the totals can make a difference.**  Of two positions with the same exposure the first
one takes a trade.  Then the second one takes it exactly if its totals have room. -/
theorem apply_iff_hasRoom {gain? : Option Gain} (hq : t.quantity.isPositive = true)
    (h : p.SameExposure q) (hp : p.apply terms t = .ok (gain?, p')) :
    (∃ applied, q.apply terms t = .ok applied) ↔ q.HasRoom terms t gain? := by
  constructor
  · rintro ⟨⟨other?, q'⟩, happly⟩
    obtain ⟨rfl, -⟩ := h.apply hp happly
    exact hasRoom_of_apply hq happly
  · intro hroom
    obtain ⟨q', happly, -⟩ := exists_apply_of_sameExposure h hp hroom
    exact ⟨_, happly⟩

/-- Two runs through the same trades that start with the same exposure end with the same, whatever
the totals come to. -/
theorem SameExposure.afterAll {q' : Position} (ts : List Trade) : ∀ {p q : Position},
    p.SameExposure q → p.afterAll terms ts = .ok p' → q.afterAll terms ts = .ok q' →
      p'.SameExposure q' := by
  induction ts with
  | nil =>
      intro p q h hp hq
      obtain rfl := Except.ok.inj hp
      obtain rfl := Except.ok.inj hq
      exact h
  | cons t ts ih =>
      intro p q h hp hq
      rw [afterAll_cons] at hp hq
      obtain ⟨p₁, hp₁, hp⟩ := bind_eq_ok.mp hp
      obtain ⟨q₁, hq₁, hq⟩ := bind_eq_ok.mp hq
      obtain ⟨⟨gain?, _⟩, hpapply, rfl⟩ := map_eq_ok.mp hp₁
      obtain ⟨⟨other?, _⟩, hqapply, rfl⟩ := map_eq_ok.mp hq₁
      exact ih (h.apply hpapply hqapply).2 hp hq

/-- **A run goes on in the same way wherever the same is open.**  A run from `p` passes through a
trade.  A run from a position with the same exposure through the trades before it takes it exactly
if its totals have room, and then it earns the same, and what is open is the same in every
respect. -/
theorem SameExposure.goes_on {last : Position} {before after : List Trade}
    (h : p.SameExposure q) (hq : t.quantity.isPositive = true)
    (hrun : p.afterAll terms (before ++ t :: after) = .ok last) :
    ∃ p₁ gain? p₂, p.afterAll terms before = .ok p₁ ∧ p₁.apply terms t = .ok (gain?, p₂) ∧
      ∀ q₁, q.afterAll terms before = .ok q₁ → p₁.SameExposure q₁ ∧
        ((∃ applied, q₁.apply terms t = .ok applied) ↔ q₁.HasRoom terms t gain?) ∧
        ∀ other? q₂, q₁.apply terms t = .ok (other?, q₂) → other? = gain? ∧ p₂.SameExposure q₂ ∧
          ∀ price, p₂.unrealizedProfit price = q₂.unrealizedProfit price := by
  rw [afterAll_append] at hrun
  obtain ⟨p₁, hp₁, hrun⟩ := bind_eq_ok.mp hrun
  rw [afterAll_cons] at hrun
  obtain ⟨_, hafter, -⟩ := bind_eq_ok.mp hrun
  obtain ⟨⟨gain?, p₂⟩, happly, -⟩ := map_eq_ok.mp hafter
  refine ⟨p₁, gain?, p₂, hp₁, happly, fun q₁ hq₁ => ?_⟩
  have hsame := h.afterAll before hp₁ hq₁
  refine ⟨hsame, apply_iff_hasRoom hq hsame happly, fun other? q₂ hq₂ => ?_⟩
  obtain ⟨hgain, hsame'⟩ := hsame.apply happly hq₂
  exact ⟨hgain.symm, hsame', hsame'.unrealizedProfit⟩

end Position

end CostBasis
