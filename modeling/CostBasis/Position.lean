import CostBasis.Fee
import Std.Data.ExtTreeMap

/-!
# Positions at average cost

A position is what the trades of one market add up to: how much of the base currency is held or
owed, what it cost, and what has been earned by closing parts of it.

The cost of the open amount is kept as one total, not as a price.  A trade in the direction of the
position adds to it.  A trade against the position releases a share of it, rounded to sixteen
places, and all of it when the position is closed, so that nothing is left over.  What was released
less what the trade brought in is the profit.  A trade larger than the position closes it and
opens one of the other direction with the rest.

A second total carries the fees as well: they raise the cost of what was bought and lower the
proceeds of what was sold.  Profits measured against it are net profits.
-/

namespace CostBasis

/-- The total of the fees in each currency. -/
abbrev FeeTotals := Std.ExtTreeMap String Decimal

/-- The total of a currency with one more fee, which may be the first.
Source: the first half of `record_fee`. -/
def FeeTotals.charge (totals : FeeTotals) (currency : String) (fee : Decimal) :
    Except Fault FeeTotals :=
  ((totals.getD currency .zero).add fee).map (totals.insert currency)

/-- Whether an amount is held or owed.
Source: `side_direction`, a factor of one or minus one.  To change a sign is the same as to multiply
by it. -/
inductive Direction where
  /-- The amount is held. -/
  | long
  /-- The amount is owed. -/
  | short
deriving DecidableEq, Repr

namespace Direction

/-- The direction of a signed amount; nothing counts as held. -/
def of (amount : Decimal) : Direction := if amount.isNegative then .short else .long

/-- The other direction. -/
def flip : Direction → Direction
  | .long => .short
  | .short => .long

/-- The amount, with its sign changed for what is owed. -/
def signed : Direction → Decimal → Decimal
  | .long, d => d
  | .short, d => -d

end Direction

/-- What a trade has earned.
Source: `TradeOutcome`; where `realized` is false there is no gain. -/
structure Gain where
  /-- What was earned before fees. -/
  gross : Decimal
  /-- What was earned after fees. -/
  net : Decimal
deriving DecidableEq

/-- The state of one position.
Source: `Position`; specification, sections 3, 4.3 and A3.  The market and the rates, which do not
change, are in `Terms`. -/
structure Position where
  /-- The amount of the base currency, negative if it is owed. -/
  base : Decimal
  /-- The quote currency that was taken in, less what was paid. -/
  quote : Decimal
  /-- The cost of one unit of the open amount. -/
  averageCost : Decimal
  /-- The cost of one unit of the open amount, with fees. -/
  netAverageCost : Decimal
  /-- All gains before fees. -/
  grossProfit : Decimal
  /-- All gains after fees. -/
  netProfit : Decimal
  /-- All fees, in the quote currency. -/
  feeTotal : Decimal
  /-- All fees, each in its own currency. -/
  fees : FeeTotals
  /-- The number of trades. -/
  tradeCount : Nat
  /-- The time of the last trade. -/
  updatedAt : Option Instant
  /-- The cost of the open amount. -/
  costBasis : Decimal
  /-- The cost of the open amount, with fees. -/
  netCostBasis : Decimal
deriving DecidableEq

namespace Position

/-- The number of places to which a released share of the cost is rounded.
Source: `BASIS_SCALE`. -/
def basisScale : Nat := 16

/-- The position before any trade.
Source: `new` of `Position`. -/
def flat : Position where
  base := .zero
  quote := .zero
  averageCost := .zero
  netAverageCost := .zero
  grossProfit := .zero
  netProfit := .zero
  feeTotal := .zero
  fees := ∅
  tradeCount := 0
  updatedAt := none
  costBasis := .zero
  netCostBasis := .zero

instance : Inhabited Position := ⟨flat⟩

/-- Whether nothing is open. -/
def isFlat (p : Position) : Bool := p.base.isZero

/-- Whether an amount is held. -/
def isLong (p : Position) : Bool := p.base.isPositive

/-- Whether an amount is owed. -/
def isShort (p : Position) : Bool := p.base.isNegative

/-- The direction of the open amount. -/
def direction (p : Position) : Direction := .of p.base

/-- What closing the whole position at `price` would earn before fees.
Source: `unrealized_profit`. -/
def unrealizedProfit (p : Position) (price : Decimal) : Except Fault Decimal := do
  let value ← price.mul p.base.abs
  let profit ← value.sub p.costBasis
  return p.direction.signed profit

/-! ## The effect of a trade -/

/-- Adds the fee of a trade to the totals.
Source: `record_fee`. -/
def chargeFee (p : Position) (t : Trade) (fee : Decimal) : Except Fault Position := do
  let fees ← if t.fee.isZero then pure p.fees else p.fees.charge t.feeCurrency t.fee
  let feeTotal ← p.feeTotal.add fee
  return { p with fees, feeTotal }

/-- Moves the quote currency, and counts the trade.
Source: the lines of `add_trade` between the fee and the exposure. -/
def settle (p : Position) (t : Trade) : Except Fault Position := do
  let paid ← t.signedQuantity.mul t.price
  let quote ← p.quote.sub paid
  return { p with quote, tradeCount := p.tradeCount + 1, updatedAt := some t.time }

/-- Whether a trade opens the position or goes in its direction. -/
def extendedBy (p : Position) (t : Trade) : Bool :=
  p.base.isZero || p.base.isPositive == t.signedQuantity.isPositive

/-- Opens the position or adds to it.
Source: `extend`. -/
def increase (p : Position) (t : Trade) (fee : Decimal) : Except Fault Position := do
  let notional ← t.price.mul t.quantity
  let costBasis ← p.costBasis.add notional
  let netNotional ← notional.add ((Direction.of t.signedQuantity).signed fee)
  let netCostBasis ← p.netCostBasis.add netNotional
  let base ← p.base.add t.signedQuantity
  return { p with costBasis, netCostBasis, base }

/-- The share `part / whole` of an amount, rounded to the places of a released cost. -/
def share (amount part whole : Decimal) : Except Fault Decimal := do
  let product ← amount.mul part
  let quotient ← product.div whole
  return quotient.roundTo basisScale

/-- The part of the fee of a trade that belongs to what it closes: all of it where nothing is
opened.
Source: `close_fee` in `reduce`. -/
def closingFee (t : Trade) (fee closed opened : Decimal) : Except Fault Decimal :=
  if opened.isZero then pure fee else share fee closed t.quantity

/-- The costs that are released by closing an amount: all there are where all is closed.
Source: `closed_cost` and `closed_fee_cost` in `reduce`. -/
def release (p : Position) (closed : Decimal) : Except Fault (Decimal × Decimal) :=
  if closed.isEqual p.base.abs then pure (p.costBasis, p.netCostBasis)
  else do
    let cost ← share p.costBasis closed p.base.abs
    let netCost ← share p.netCostBasis closed p.base.abs
    return (cost, netCost)

/-- The costs of an amount that a trade opens in a direction. -/
def opening (direction : Direction) (t : Trade) (opened fee : Decimal) :
    Except Fault (Decimal × Decimal) := do
  let notional ← t.price.mul opened
  let netNotional ← notional.add (direction.signed fee)
  return (notional, netNotional)

/-- Closes a part of the position or all of it, and opens the other direction with what is left of
the trade.
Source: `reduce`; specification, sections 4.3 and A3. -/
def decrease (p : Position) (t : Trade) (fee : Decimal) : Except Fault (Gain × Position) := do
  let direction := p.direction
  let closed := min t.quantity p.base.abs
  let opened ← t.quantity.sub closed
  let closingFee ← closingFee t fee closed opened
  let openingFee ← fee.sub closingFee
  let (cost, netCost) ← p.release closed
  let proceeds ← t.price.mul closed
  let gross ← proceeds.sub cost
  let gross := direction.signed gross
  let netOfCost ← proceeds.sub netCost
  let net ← (direction.signed netOfCost).sub closingFee
  let costBasis ← p.costBasis.sub cost
  let netCostBasis ← p.netCostBasis.sub netCost
  let base ← p.base.add t.signedQuantity
  let (costBasis, netCostBasis) ←
    if opened.isPositive then opening direction.flip t opened openingFee
    else pure (costBasis, netCostBasis)
  let grossProfit ← p.grossProfit.add gross
  let netProfit ← p.netProfit.add net
  return (⟨gross, net⟩, { p with base, costBasis, netCostBasis, grossProfit, netProfit })

/-- Derives the costs of one unit, to `scale` places.  Where there are none the costs are
cleared: nothing is open, or a unit costs more than a decimal can say.
Source: `refresh_average_costs`. -/
def refreshAverages (p : Position) (scale : Nat) : Position :=
  match p.costBasis.div? p.base.abs, p.netCostBasis.div? p.base.abs with
  | some cost, some netCost =>
    { p with averageCost := cost.roundTo scale, netAverageCost := netCost.roundTo scale }
  | _, _ =>
    { p with
      costBasis := .zero, netCostBasis := .zero, averageCost := .zero, netAverageCost := .zero }

/-- Moves the open amount by a trade, with what the trade has earned if it went against the
position. -/
def move (p : Position) (t : Trade) (fee : Decimal) : Except Fault (Option Gain × Position) :=
  if p.extendedBy t then do
    let p ← p.increase t fee
    return (none, p)
  else do
    let (gain, p) ← p.decrease t fee
    return (some gain, p)

/-- The effect of a trade, with what it has earned if it went against the position.  A trade
without a positive quantity has no effect.
Source: `add_trade`. -/
def apply (terms : Terms) (p : Position) (t : Trade) :
    Except Fault (Option Gain × Position) := do
  if t.quantity.isPositive then
    let fee ← terms.feeInQuote t
    let p ← p.chargeFee t fee
    let p ← p.settle t
    let (gain?, p) ← p.move t fee
    return (gain?, p.refreshAverages terms.market.averageCostScale)
  else return (none, p)

/-- The position after one trade. -/
def after (terms : Terms) (p : Position) (t : Trade) : Except Fault Position :=
  (p.apply terms t).map (·.2)

/-- The position after a list of trades, in the order of the list. -/
def afterAll (terms : Terms) (p : Position) (ts : List Trade) : Except Fault Position :=
  ts.foldlM (after terms) p

end Position

/-- The state of a position as others see it.
Source: `PositionSnapshot`. -/
structure Snapshot where
  /-- The symbol that is traded. -/
  symbol : String
  /-- The amount of the base currency, negative if it is owed. -/
  base : Decimal
  /-- The quote currency that was taken in, less what was paid. -/
  quote : Decimal
  /-- The cost of one unit of the open amount. -/
  averageCost : Decimal
  /-- The cost of one unit of the open amount, with fees. -/
  netAverageCost : Decimal
  /-- All gains before fees. -/
  grossProfit : Decimal
  /-- All gains after fees. -/
  netProfit : Decimal
  /-- All fees, in the quote currency. -/
  feeTotal : Decimal
  /-- All fees, each in its own currency. -/
  fees : FeeTotals
  /-- The number of trades. -/
  tradeCount : Nat
  /-- The time of the last trade. -/
  updatedAt : Option Instant
deriving DecidableEq

/-- The public state of a position in a symbol.
Source: `snapshot`. -/
def Position.snapshot (p : Position) (symbol : String) : Snapshot where
  symbol
  base := p.base
  quote := p.quote
  averageCost := p.averageCost
  netAverageCost := p.netAverageCost
  grossProfit := p.grossProfit
  netProfit := p.netProfit
  feeTotal := p.feeTotal
  fees := p.fees
  tradeCount := p.tradeCount
  updatedAt := p.updatedAt

end CostBasis
