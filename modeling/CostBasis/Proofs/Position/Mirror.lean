import CostBasis.Proofs.Decimal.Sign
import CostBasis.Proofs.Position.UnitCost

/-!
# Both sides of a market

To sell where another one buys is to owe what the other one holds.  The costs are the same, since
they are counted without a sign, and what one earns before fees the other one loses.  This holds to
the last place, as rounding does the same on both sides of zero.

Fees break the symmetry: they raise the cost of what was bought and lower the proceeds of what was
sold.  So nothing is said of the costs and the gains after fees, except that they have to stay in
range on both sides; for where a unit cost is missing, the costs before fees are cleared with the
others.

Main statements: `Mirrors.apply` for one trade, `mirrored_throughout` for a run.
-/

namespace CostBasis

open Decimal

/-! ## The other side -/

/-- The other side. -/
def Side.flip : Side → Side
  | .buy => .sell
  | .sell => .buy

/-- The same trade on the other side. -/
def Trade.mirror (t : Trade) : Trade := { t with side := t.side.flip }

/-- What one side takes the other one gives. -/
theorem Trade.signedQuantity_mirror (t : Trade) : t.mirror.signedQuantity = -t.signedQuantity := by
  unfold Trade.signedQuantity Trade.mirror
  cases t.side with
  | buy => rfl
  | sell => exact (negated_negated _).symm

/-- The fee of a trade does not depend on its side. -/
theorem Terms.feeInQuote_mirror (terms : Terms) (t : Trade) :
    terms.feeInQuote t.mirror = terms.feeInQuote t := rfl

namespace Direction

/-- What is not held is owed. -/
theorem of_negated {d : Decimal} (h : ¬d.isZero = true) : of (-d) = (of d).flip := by
  unfold of
  rw [isNegative_negated h]
  cases d.isNegative <;> rfl

/-- The other direction gives the other sign. -/
theorem signed_flip (direction : Direction) (d : Decimal) :
    direction.flip.signed d = -direction.signed d := by
  cases direction with
  | long => rfl
  | short => exact (negated_negated d).symm

end Direction

namespace Position

variable {terms : Terms} {p p' q q' : Position} {t : Trade} {fee : Decimal} {scale : ℕ}

/-- The positions are those of the two sides of the same trades: what one holds the other owes, at
the same cost. -/
structure Mirrors (p p' : Position) : Prop where
  base : p'.base = -p.base
  quote : p'.quote = -p.quote
  costBasis : p'.costBasis = p.costBasis
  averageCost : p'.averageCost = p.averageCost
  grossProfit : p'.grossProfit = -p.grossProfit
  feeTotal : p'.feeTotal = p.feeTotal
  fees : p'.fees = p.fees
  tradeCount : p'.tradeCount = p.tradeCount
  updatedAt : p'.updatedAt = p.updatedAt

/-- What one has earned before fees the other one has lost. -/
def MirrorsGain (gain gain' : Gain) : Prop := gain'.gross = -gain.gross

/-- A flat position is the other side of a flat position. -/
theorem mirrors_flat : flat.Mirrors flat := ⟨rfl, rfl, rfl, rfl, rfl, rfl, rfl, rfl, rfl⟩

/-! ## What depends on the open amount -/

/-- As much is held on one side as is owed on the other. -/
theorem Mirrors.abs_base (h : p.Mirrors p') : p'.base.abs = p.base.abs := by
  rw [h.base, abs_negated]

/-- Open positions on the two sides of a market have different directions. -/
theorem Mirrors.direction (h : p.Mirrors p') (hopen : ¬p.base.isZero = true) :
    p'.direction = p.direction.flip := by
  rw [Position.direction, Position.direction, h.base, Direction.of_negated hopen]

/-- A trade opens or extends a position if the trade of the other side does this to the position of
the other side. -/
theorem Mirrors.extendedBy (h : p.Mirrors p') (hq : t.quantity.isPositive = true) :
    p'.extendedBy t.mirror = p.extendedBy t := by
  unfold Position.extendedBy
  rw [h.base, isZero_negated, Trade.signedQuantity_mirror]
  by_cases hopen : p.base.isZero = true
  · rw [hopen, Bool.true_or, Bool.true_or]
  · have hsigned : ¬t.signedQuantity.isZero = true := by
      rw [isZero_iff, Trade.toRat_signedQuantity]
      rw [isPositive_iff] at hq
      rcases t.side.sign_eq_or with hside | hside <;> rw [hside] <;> linarith
    rw [isPositive_negated hopen, isPositive_negated hsigned]
    cases p.base.isPositive <;> cases t.signedQuantity.isPositive <;> rfl

/-- What one would earn at a price the other one would lose.  A position in which nothing is open
has no cost, so that it would earn zero on both sides. -/
theorem Mirrors.unrealizedProfit (h : p.Mirrors p')
    (hcleared : p.base.isZero = true → p.costBasis = .zero) (price : Decimal) :
    p'.unrealizedProfit price = (p.unrealizedProfit price).map (-·) := by
  by_cases hopen : p.base.isZero = true
  · -- Nothing is open on either side, and nothing would be earned.
    have hvalue : price.mul Decimal.zero = .ok .zero := by
      rw [Decimal.mul, mul_comm, Nat.add_comm]
      exact zero_mul_eq price
    have hnone : ∀ {r : Position}, r.base = .zero → r.costBasis = .zero →
        r.unrealizedProfit price = .ok .zero := by
      intro r hbase hcost
      have habs : Decimal.zero.abs = .zero := rfl
      have hprofit : Decimal.zero.sub .zero = .ok .zero := by decide +kernel
      rw [Position.unrealizedProfit, hbase, hcost, habs, hvalue, ok_bind, hprofit, ok_bind,
        Position.direction, hbase]
      rfl
    have hbase := eq_zero_of_isZero hopen
    have hcost := hcleared hopen
    rw [hnone hbase hcost, hnone (by rw [h.base, hbase]; rfl) (h.costBasis.trans hcost)]
    rfl
  · unfold Position.unrealizedProfit
    rw [h.abs_base, h.costBasis, h.direction hopen]
    cases hvalue : price.mul p.base.abs with
    | error fault => rfl
    | ok value =>
        rw [ok_bind, ok_bind]
        cases value.sub p.costBasis with
        | error fault => rfl
        | ok profit => exact congrArg Except.ok (Direction.signed_flip _ _)

/-! ## The steps of a trade -/

/-- Both sides are charged the fee, so they are the two sides still: their fees are the same fees,
with no sign turned round. -/
theorem Mirrors.chargeFee (h : p.Mirrors p') (hp : p.chargeFee t fee = .ok q)
    (hp' : p'.chargeFee t.mirror fee = .ok q') : q.Mirrors q' := by
  have hsame : p'.chargeFee t.mirror fee =
      (p.chargeFee t fee).map fun q => { p' with fees := q.fees, feeTotal := q.feeTotal } := by
    unfold Position.chargeFee
    rw [h.fees, h.feeTotal]
    show (if t.fee.isZero then _ else
      p.fees.charge t.feeCurrency t.fee >>= fun fees => p.feeTotal.add fee >>= fun feeTotal =>
        pure { p' with fees, feeTotal }) = _
    split
    · cases p.feeTotal.add fee <;> rfl
    · cases p.fees.charge t.feeCurrency t.fee with
      | error fault => rfl
      | ok fees => cases p.feeTotal.add fee <;> rfl
  rw [hsame] at hp'
  obtain rfl := eq_of_map_eq_ok hp hp'
  obtain ⟨_, _, rfl⟩ := chargeFee_eq_ok hp
  exact ⟨h.base, h.quote, h.costBasis, h.averageCost, h.grossProfit, rfl, rfl, h.tradeCount,
    h.updatedAt⟩

/-- The quote currency that one side pays the other one takes in.  Rounding does the same on both
sides of zero. -/
theorem Mirrors.settle (h : p.Mirrors p') (hp : p.settle t = .ok q)
    (hp' : p'.settle t.mirror = .ok q') : q.Mirrors q' := by
  obtain ⟨paid, hpaid, hp⟩ := bind_eq_ok.mp hp
  obtain ⟨quote, hquote, hp⟩ := bind_eq_ok.mp hp
  obtain ⟨paid', hpaid', hp'⟩ := bind_eq_ok.mp hp'
  obtain ⟨quote', hquote', hp'⟩ := bind_eq_ok.mp hp'
  obtain rfl := Except.ok.inj hp
  obtain rfl := Except.ok.inj hp'
  rw [Trade.signedQuantity_mirror, mul_negated] at hpaid'
  obtain rfl := eq_of_map_eq_ok hpaid hpaid'
  rw [h.quote, sub_negated] at hquote'
  obtain rfl := eq_of_map_eq_ok hquote hquote'
  exact ⟨h.base, rfl, h.costBasis, h.averageCost, h.grossProfit, h.feeTotal, h.fees,
    congrArg (· + 1) h.tradeCount, rfl⟩

/-- What a trade adds to the cost before fees is the same on both sides, and what it adds to the
open amount has different signs. -/
theorem Mirrors.increase (h : p.Mirrors p') (hp : p.increase t fee = .ok q)
    (hp' : p'.increase t.mirror fee = .ok q') : q.Mirrors q' := by
  obtain ⟨notional, hnotional, hp⟩ := bind_eq_ok.mp hp
  obtain ⟨cost, hcost, hp⟩ := bind_eq_ok.mp hp
  obtain ⟨netNotional, -, hp⟩ := bind_eq_ok.mp hp
  obtain ⟨netCost, -, hp⟩ := bind_eq_ok.mp hp
  obtain ⟨base, hbase, hp⟩ := bind_eq_ok.mp hp
  obtain ⟨notional', hnotional', hp'⟩ := bind_eq_ok.mp hp'
  obtain ⟨cost', hcost', hp'⟩ := bind_eq_ok.mp hp'
  obtain ⟨netNotional', -, hp'⟩ := bind_eq_ok.mp hp'
  obtain ⟨netCost', -, hp'⟩ := bind_eq_ok.mp hp'
  obtain ⟨base', hbase', hp'⟩ := bind_eq_ok.mp hp'
  obtain rfl := Except.ok.inj hp
  obtain rfl := Except.ok.inj hp'
  obtain rfl : notional = notional' := Except.ok.inj (hnotional.symm.trans hnotional')
  rw [h.costBasis] at hcost'
  obtain rfl : cost = cost' := Except.ok.inj (hcost.symm.trans hcost')
  rw [h.base, Trade.signedQuantity_mirror, add_negated] at hbase'
  obtain rfl := eq_of_map_eq_ok hbase hbase'
  exact ⟨rfl, h.quote, rfl, h.averageCost, h.grossProfit, h.feeTotal, h.fees, h.tradeCount,
    h.updatedAt⟩

/-- The cost before fees that is released by closing an amount. -/
def releasedCost (p : Position) (closed : Decimal) : Except Fault Decimal :=
  if closed.isEqual p.base.abs then pure p.costBasis else share p.costBasis closed p.base.abs

/-- The cost before fees is released by itself, whatever is released after fees.  That the two sides
differ after fees does not matter then. -/
theorem releasedCost_of_release {closed : Decimal} {released : Decimal × Decimal}
    (h : p.release closed = .ok released) : p.releasedCost closed = .ok released.1 := by
  unfold release at h
  unfold releasedCost
  split at h
  next hwhole =>
    rw [if_pos hwhole]
    obtain rfl := Except.ok.inj h
    rfl
  next hpart =>
    rw [if_neg hpart]
    obtain ⟨cost, hcost, h⟩ := bind_eq_ok.mp h
    obtain ⟨netCost, -, h⟩ := bind_eq_ok.mp h
    obtain rfl := Except.ok.inj h
    exact hcost

/-- Both sides release the same cost. -/
theorem Mirrors.releasedCost (h : p.Mirrors p') (closed : Decimal) :
    p'.releasedCost closed = p.releasedCost closed := by
  rw [Position.releasedCost, Position.releasedCost, h.abs_base, h.costBasis]

/-- The cost before fees of what is open after a trade against the position: of what the trade
opens, if it opens something, and else what was not released. -/
def costAgainst (p : Position) (t : Trade) (opened cost : Decimal) : Except Fault Decimal :=
  if opened.isPositive then t.price.mul opened else p.costBasis.sub cost

/-- What a trade against the position earns before fees, and what the open amount has cost then: the
intermediate results of the calculation, in their order. -/
structure GrossDecrease (p : Position) (t : Trade) (gain : Gain) (q : Position)
    (opened cost proceeds gross : Decimal) : Prop where
  opens : t.quantity.sub (min t.quantity p.base.abs) = .ok opened
  releases : p.releasedCost (min t.quantity p.base.abs) = .ok cost
  brings : t.price.mul (min t.quantity p.base.abs) = .ok proceeds
  earns : proceeds.sub cost = .ok gross
  signs : gain.gross = p.direction.signed gross
  costBasis : p.costAgainst t opened cost = .ok q.costBasis

/-- A trade against the position goes by these intermediate results, if it meets no fault.  What
happens to the fees and the net cost is left out. -/
theorem grossDecrease_of_decrease {gain : Gain} (h : p.decrease t fee = .ok (gain, q)) :
    ∃ opened cost proceeds gross, p.GrossDecrease t gain q opened cost proceeds gross := by
  obtain ⟨opened, hopened, h⟩ := bind_eq_ok.mp h
  obtain ⟨closingFee, -, h⟩ := bind_eq_ok.mp h
  obtain ⟨openingFee, -, h⟩ := bind_eq_ok.mp h
  obtain ⟨⟨cost, netCost⟩, hreleased, h⟩ := bind_eq_ok.mp h
  obtain ⟨proceeds, hproceeds, h⟩ := bind_eq_ok.mp h
  obtain ⟨gross, hgross, h⟩ := bind_eq_ok.mp h
  obtain ⟨netOfCost, -, h⟩ := bind_eq_ok.mp h
  obtain ⟨net, -, h⟩ := bind_eq_ok.mp h
  obtain ⟨costBasis, hcostBasis, h⟩ := bind_eq_ok.mp h
  obtain ⟨netCostBasis, -, h⟩ := bind_eq_ok.mp h
  obtain ⟨base, -, h⟩ := bind_eq_ok.mp h
  refine ⟨opened, cost, proceeds, gross, ?_⟩
  split at h
  next hpositive =>
    obtain ⟨costs, hcosts, h⟩ := bind_eq_ok.mp h
    obtain ⟨grossProfit, -, h⟩ := bind_eq_ok.mp h
    obtain ⟨netProfit, -, h⟩ := bind_eq_ok.mp h
    obtain ⟨rfl, rfl⟩ := Prod.mk.inj (Except.ok.inj h)
    obtain ⟨notional, hnotional, hcosts⟩ := bind_eq_ok.mp hcosts
    obtain ⟨netNotional, -, hcosts⟩ := bind_eq_ok.mp hcosts
    obtain rfl := Except.ok.inj hcosts
    exact ⟨hopened, releasedCost_of_release hreleased, hproceeds, hgross, rfl,
      (if_pos hpositive).trans hnotional⟩
  next hnot =>
    obtain ⟨costs, hcosts, h⟩ := bind_eq_ok.mp h
    obtain ⟨grossProfit, -, h⟩ := bind_eq_ok.mp h
    obtain ⟨netProfit, -, h⟩ := bind_eq_ok.mp h
    obtain ⟨rfl, rfl⟩ := Prod.mk.inj (Except.ok.inj h)
    obtain rfl := Except.ok.inj hcosts
    exact ⟨hopened, releasedCost_of_release hreleased, hproceeds, hgross, rfl,
      (if_neg hnot).trans hcostBasis⟩

/-- A trade against the position earns on one side what it loses on the other, and leaves two sides
of one thing.  The two runs have the same intermediate results but for the signs, so these are
compared one by one. -/
theorem Mirrors.decrease {gain gain' : Gain} (h : p.Mirrors p') (hopen : ¬p.base.isZero = true)
    (hp : p.decrease t fee = .ok (gain, q)) (hp' : p'.decrease t.mirror fee = .ok (gain', q')) :
    MirrorsGain gain gain' ∧ q.Mirrors q' := by
  obtain ⟨opened, cost, proceeds, gross, hopens, hreleases, hbrings, hearns, hsigns, hcosts⟩ :=
    grossDecrease_of_decrease hp
  obtain ⟨opened', cost', proceeds', gross', hopens', hreleases', hbrings', hearns', hsigns',
    hcosts'⟩ := grossDecrease_of_decrease hp'
  -- The same amount is closed, at the same cost and with the same proceeds.
  have hclosed : min t.mirror.quantity p'.base.abs = min t.quantity p.base.abs := by
    rw [h.abs_base]
    rfl
  rw [hclosed] at hopens' hreleases' hbrings'
  rw [h.releasedCost] at hreleases'
  obtain rfl : opened = opened' := Except.ok.inj (hopens.symm.trans hopens')
  obtain rfl : cost = cost' := Except.ok.inj (hreleases.symm.trans hreleases')
  obtain rfl : proceeds = proceeds' := Except.ok.inj (hbrings.symm.trans hbrings')
  obtain rfl : gross = gross' := Except.ok.inj (hearns.symm.trans hearns')
  have hgain : gain'.gross = -gain.gross := by
    rw [hsigns, hsigns', h.direction hopen, Direction.signed_flip]
  have hcost : q'.costBasis = q.costBasis := by
    rw [costAgainst, h.costBasis] at hcosts'
    exact Except.ok.inj (hcosts'.symm.trans hcosts)
  obtain ⟨_, _, _, _, _, hbase, hprofit, -, rfl⟩ := decrease_eq_ok hp
  obtain ⟨_, _, _, _, _, hbase', hprofit', -, rfl⟩ := decrease_eq_ok hp'
  rw [h.base, Trade.signedQuantity_mirror, add_negated] at hbase'
  rw [h.grossProfit, hgain, add_negated] at hprofit'
  exact ⟨hgain, eq_of_map_eq_ok hbase hbase', h.quote, hcost, h.averageCost,
    eq_of_map_eq_ok hprofit hprofit', h.feeTotal, h.fees, h.tradeCount, h.updatedAt⟩

/-- A trade goes against both positions or against neither, and leaves two sides of one thing either
way. -/
theorem Mirrors.move {gain? gain'? : Option Gain} (h : p.Mirrors p')
    (hq : t.quantity.isPositive = true) (hp : p.move t fee = .ok (gain?, q))
    (hp' : p'.move t.mirror fee = .ok (gain'?, q')) :
    Option.Rel MirrorsGain gain? gain'? ∧ q.Mirrors q' := by
  have hside := h.extendedBy hq
  cases moves_of_move hp with
  | extended hextends hincrease =>
      cases moves_of_move hp' with
      | extended _ hincrease' => exact ⟨.none, h.increase hincrease hincrease'⟩
      | against hagainst => exact absurd (hside.trans hextends) hagainst
  | against hagainst hdecrease =>
      cases moves_of_move hp' with
      | extended hextends => exact absurd (hside.symm.trans hextends) hagainst
      | against _ hdecrease' =>
          have hopen : ¬p.base.isZero = true := by
            intro hzero
            exact hagainst (by rw [Position.extendedBy, hzero, Bool.true_or])
          obtain ⟨hgain, hmirror⟩ := h.decrease hopen hdecrease hdecrease'
          exact ⟨.some hgain, hmirror⟩

/-- The cost of one unit before fees is the same on both sides.  There have to be unit costs with
fees on both sides as well, for the costs are cleared together. -/
theorem Mirrors.refreshAverages (h : p.Mirrors p')
    (hunit : HasUnitCosts p.base p.costBasis p.netCostBasis)
    (hunit' : HasUnitCosts p'.base p'.costBasis p'.netCostBasis) :
    (p.refreshAverages scale).Mirrors (p'.refreshAverages scale) := by
  by_cases hopen : p.base.isZero = true
  · have hopen' : p'.base.isZero = true := by rwa [h.base, isZero_negated]
    rw [refreshAverages_of_isZero hopen, refreshAverages_of_isZero hopen']
    exact ⟨h.base, h.quote, rfl, rfl, h.grossProfit, h.feeTotal, h.fees, h.tradeCount, h.updatedAt⟩
  · have hopen' : ¬p'.base.isZero = true := by rwa [h.base, isZero_negated]
    rw [isZero_iff] at hopen hopen'
    have hkeeps : p.KeepsCosts scale _ := keepsCosts_refreshAverages hopen hunit
    have hkeeps' : p'.KeepsCosts scale _ := keepsCosts_refreshAverages hopen' hunit'
    have hcost := hkeeps'.cost.trans (h.costBasis.trans hkeeps.cost.symm)
    have haverage :
        (p'.refreshAverages scale).averageCost = (p.refreshAverages scale).averageCost := by
      obtain ⟨d, hd, hround⟩ := hkeeps.average
      obtain ⟨d', hd', hround'⟩ := hkeeps'.average
      rw [h.costBasis, h.abs_base] at hd'
      rw [hround, hround', Option.some.inj (hd.symm.trans hd')]
    obtain ⟨_, _, _, _, hrefresh⟩ := p.refreshAverages_eq scale
    obtain ⟨_, _, _, _, hrefresh'⟩ := p'.refreshAverages_eq scale
    rw [hrefresh, hrefresh'] at hcost haverage ⊢
    exact ⟨h.base, h.quote, hcost, haverage, h.grossProfit, h.feeTotal, h.fees, h.tradeCount,
      h.updatedAt⟩

/-! ## Trades and runs -/

/-- A trade meets no fault, and what it leads to has unit costs, if something is open then. -/
def HasUnitCostsAfter (terms : Terms) (p : Position) (t : Trade) : Prop :=
  t.quantity.isPositive = true →
    Yields (terms.feeInQuote t) fun fee =>
      Yields (p.chargeFee t fee) fun charged =>
        Yields (charged.settle t) fun settled =>
          Yields (settled.move t fee) fun moved =>
            HasUnitCosts moved.2.base moved.2.costBasis moved.2.netCostBasis

/-- A list of trades is applied to the end, and each of them leads to something that has unit
costs. -/
def HasUnitCostsThroughout (terms : Terms) : Position → List Trade → Prop
  | _, [] => True
  | p, t :: ts =>
    p.HasUnitCostsAfter terms t ∧
      Yields (p.after terms t) fun p => p.HasUnitCostsThroughout terms ts

instance (terms : Terms) (p : Position) (t : Trade) : Decidable (p.HasUnitCostsAfter terms t) := by
  unfold HasUnitCostsAfter
  infer_instance

/-- Whether a list of trades has unit costs throughout is found out by applying it. -/
instance decidableHasUnitCostsThroughout (terms : Terms) :
    (p : Position) → (ts : List Trade) → Decidable (p.HasUnitCostsThroughout terms ts)
  | _, [] => isTrue trivial
  | p, t :: ts =>
    have := fun p => decidableHasUnitCostsThroughout terms p ts
    inferInstanceAs (Decidable (p.HasUnitCostsAfter terms t ∧
      Yields (p.after terms t) fun p => p.HasUnitCostsThroughout terms ts))

/-- The steps of a trade that meets no fault and leads to something that has unit costs. -/
theorem steps_of_hasUnitCostsAfter (hq : t.quantity.isPositive = true)
    (h : p.HasUnitCostsAfter terms t) :
    ∃ fee charged settled gain? moved, terms.feeInQuote t = .ok fee ∧
      p.chargeFee t fee = .ok charged ∧ charged.settle t = .ok settled ∧
      settled.move t fee = .ok (gain?, moved) ∧
      HasUnitCosts moved.base moved.costBasis moved.netCostBasis ∧
      p.apply terms t = .ok (gain?, moved.refreshAverages terms.market.averageCostScale) := by
  obtain ⟨fee, hfee, charged, hcharged, settled, hsettled, ⟨gain?, moved⟩, hmoved, hcosts⟩ := h hq
  refine ⟨fee, charged, settled, gain?, moved, hfee, hcharged, hsettled, hmoved, hcosts, ?_⟩
  rw [apply, if_pos hq, hfee, ok_bind, hcharged, ok_bind, hsettled, ok_bind, hmoved]
  rfl

/-- **What is the other side of a position stays the other side of it.**  A trade and its other side
are applied, and both lead to something that has unit costs. -/
theorem Mirrors.apply (h : p.Mirrors p') (hunit : p.HasUnitCostsAfter terms t)
    (hunit' : p'.HasUnitCostsAfter terms t.mirror) :
    ∃ gain? q gain'? q', p.apply terms t = .ok (gain?, q) ∧
      p'.apply terms t.mirror = .ok (gain'?, q') ∧ Option.Rel MirrorsGain gain? gain'? ∧
        q.Mirrors q' := by
  by_cases hq : t.quantity.isPositive = true
  · obtain ⟨fee, charged, settled, gain?, moved, hfee, hcharged, hsettled, hmoved, hcosts,
      happly⟩ := steps_of_hasUnitCostsAfter hq hunit
    obtain ⟨fee', charged', settled', gain'?, moved', hfee', hcharged', hsettled', hmoved', hcosts',
      happly'⟩ := steps_of_hasUnitCostsAfter (t := t.mirror) hq hunit'
    rw [Terms.feeInQuote_mirror] at hfee'
    obtain rfl : fee = fee' := Except.ok.inj (hfee.symm.trans hfee')
    have hsettles := (h.chargeFee hcharged hcharged').settle hsettled hsettled'
    obtain ⟨hgains, hmoves⟩ := hsettles.move hq hmoved hmoved'
    exact ⟨gain?, _, gain'?, _, happly, happly', hgains, hmoves.refreshAverages hcosts hcosts'⟩
  · refine ⟨none, p, none, p', ?_, ?_, .none, h⟩
    · rw [Position.apply, if_neg hq]
      rfl
    · rw [Position.apply, if_neg (show ¬t.mirror.quantity.isPositive = true from hq)]
      rfl

/-- Trades have unit costs throughout if the first ones have and the others have from there. -/
theorem hasUnitCostsThroughout_append {ts us : List Trade} : ∀ {p : Position},
    p.HasUnitCostsThroughout terms (ts ++ us) ↔ p.HasUnitCostsThroughout terms ts ∧
      Yields (p.afterAll terms ts) fun q => q.HasUnitCostsThroughout terms us := by
  induction ts with
  | nil =>
      intro p
      refine ⟨fun h => ⟨trivial, p, rfl, h⟩, ?_⟩
      rintro ⟨-, q, hq, h⟩
      obtain rfl := Except.ok.inj hq
      exact h
  | cons t ts ih =>
      intro p
      constructor
      · rintro ⟨hfirst, q, hq, h⟩
        obtain ⟨hthrough, r, hr, hrest⟩ := ih.mp h
        refine ⟨⟨hfirst, q, hq, hthrough⟩, r, ?_, hrest⟩
        rw [afterAll_cons, hq]
        exact hr
      · rintro ⟨⟨hfirst, q, hq, h⟩, r, hr, hrest⟩
        rw [afterAll_cons, hq, ok_bind] at hr
        exact ⟨hfirst, q, hq, ih.mpr ⟨h, r, hr, hrest⟩⟩

/-- The other side of a position stays the other side of it in a run.  Both runs come to their
end. -/
theorem Mirrors.afterAll (ts : List Trade) : ∀ {p p' : Position}, p.Mirrors p' →
    p.HasUnitCostsThroughout terms ts → p'.HasUnitCostsThroughout terms (ts.map Trade.mirror) →
      ∃ q q', p.afterAll terms ts = .ok q ∧
        p'.afterAll terms (ts.map Trade.mirror) = .ok q' ∧ q.Mirrors q' := by
  induction ts with
  | nil =>
      intro p p' h _ _
      exact ⟨p, p', rfl, rfl, h⟩
  | cons t ts ih =>
      rintro p p' h ⟨hfirst, q, hq, hrest⟩ ⟨hfirst', q', hq', hrest'⟩
      obtain ⟨gain?, r, gain'?, r', happly, happly', -, hmirror⟩ := h.apply hfirst hfirst'
      obtain rfl : r = q := by
        rw [after, happly] at hq
        exact Except.ok.inj hq
      obtain rfl : r' = q' := by
        rw [after, happly'] at hq'
        exact Except.ok.inj hq'
      obtain ⟨s, s', hs, hs', hmirrors⟩ := ih hmirror hrest hrest'
      refine ⟨s, s', ?_, ?_, hmirrors⟩
      · rw [afterAll_cons, hq]
        exact hs
      · rw [List.map_cons, afterAll_cons, hq']
        exact hs'

end Position

/-- **Both sides of a market are the same but for the signs.**  A list of trades and the same trades
on the other side are applied to the flat position; both runs come to their end, and every trade
leads to something that has unit costs.  After every trade what one position holds the other one
owes, at the same cost, what one has earned the other one has lost, and what one would earn at any
price the other one would lose.  The trade has earned something in one run if it has in the other,
and with the other sign.
Source: `extend`, `reduce` and `side_direction`. -/
theorem mirrored_throughout {terms : Terms} {ts : List Trade} {i : ℕ} {t : Trade}
    (h : Position.flat.HasUnitCostsThroughout terms ts)
    (h' : Position.flat.HasUnitCostsThroughout terms (ts.map Trade.mirror))
    (ht : ts[i]? = some t) :
    ∃ p gain? q p' gain'? q',
      Position.flat.afterAll terms (ts.take i) = .ok p ∧ p.apply terms t = .ok (gain?, q) ∧
      Position.flat.afterAll terms (ts.take (i + 1)) = .ok q ∧
      Position.flat.afterAll terms ((ts.map Trade.mirror).take i) = .ok p' ∧
      p'.apply terms t.mirror = .ok (gain'?, q') ∧
      Position.flat.afterAll terms ((ts.map Trade.mirror).take (i + 1)) = .ok q' ∧
      Option.Rel Position.MirrorsGain gain? gain'? ∧ q.Mirrors q' ∧
      ∀ price, q'.unrealizedProfit price = (q.unrealizedProfit price).map (-·) := by
  have htake : ts.take (i + 1) = ts.take i ++ [t] := by rw [List.take_add_one, ht]; rfl
  have hsplit : ts = ts.take i ++ t :: ts.drop (i + 1) := by
    rw [List.append_cons, ← htake, List.take_append_drop]
  rw [hsplit, Position.hasUnitCostsThroughout_append] at h
  rw [hsplit, List.map_append, Position.hasUnitCostsThroughout_append] at h'
  obtain ⟨hbefore, p, hp, hunit, -⟩ := h
  obtain ⟨hbefore', p', hp', hunit', -⟩ := h'
  obtain ⟨_, _, heq, heq', hmirror⟩ :=
    Position.mirrors_flat.afterAll (ts.take i) hbefore hbefore'
  obtain rfl := Except.ok.inj (heq.symm.trans hp)
  obtain rfl := Except.ok.inj (heq'.symm.trans hp')
  obtain ⟨gain?, q, gain'?, q', happly, happly', hgains, hafter⟩ := hmirror.apply hunit hunit'
  have hall := Position.afterAll_append_singleton hp happly
  have hall' := Position.afterAll_append_singleton hp' happly'
  rw [← htake] at hall
  rw [← List.map_singleton, ← List.map_append, ← htake, List.map_take] at hall'
  rw [List.map_take] at hp'
  refine ⟨_, gain?, q, _, gain'?, q', hp, happly, hall, hp', happly', hall', hgains, hafter, ?_⟩
  -- The costs of a position are cleared when it is closed.
  refine hafter.unrealizedProfit fun hflat => ?_
  rw [← Position.refreshed_of_afterAll_flat hall, Position.refreshAverages_of_isZero hflat]

/-- The fourth trade of the sample history reverses the position, on both sides: after it one owes
what the other one holds. -/
theorem mirrored_throughout_sampleHistory :
    Position.flat.HasUnitCostsThroughout sampleTerms sampleHistory ∧
      Position.flat.HasUnitCostsThroughout sampleTerms (sampleHistory.map Trade.mirror) ∧
      ∃ q q', Position.flat.afterAll sampleTerms (sampleHistory.take 4) = .ok q ∧
        Position.flat.afterAll sampleTerms ((sampleHistory.map Trade.mirror).take 4) = .ok q' ∧
        q.base.toRat = -1 ∧ q.Mirrors q' := by
  have hrun : Position.flat.HasUnitCostsThroughout sampleTerms sampleHistory := by decide +kernel
  have hrun' : Position.flat.HasUnitCostsThroughout sampleTerms
      (sampleHistory.map Trade.mirror) := by decide +kernel
  have hshort : Yields (Position.flat.afterAll sampleTerms (sampleHistory.take 4)) fun q =>
      q.base.toRat = -1 := by decide +kernel
  have hfourth : sampleHistory[3]? = some (sampleHistory.get ⟨3, by decide⟩) := rfl
  obtain ⟨_, _, q, _, _, q', -, -, hq, -, -, hq', -, hmirror, -⟩ :=
    mirrored_throughout hrun hrun' hfourth
  obtain ⟨_, heq, hbase⟩ := hshort
  obtain rfl := Except.ok.inj (heq.symm.trans hq)
  exact ⟨hrun, hrun', _, q', hq, hq', hbase, hmirror⟩

end CostBasis
