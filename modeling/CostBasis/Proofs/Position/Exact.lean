import CostBasis.Position
import CostBasis.Proofs.Decimal.Exact

/-!
# Exact runs of a position

A run is exact where nothing is rounded that need not be: every sum, every difference, and every
product of a price with a quantity, be it the whole quantity of a trade, the closed part or the
opened part.  The shares that a partial close releases and the share of a fee that belongs to a
close are quotients, and may be rounded; so may a fee that is converted.  And while something is
open, its two unit costs are in range.

The predicates follow the calculation line by line, so an exact run is also one that meets no
fault.  They can be decided.
-/

namespace CostBasis

open Decimal

/-! ## Signs of directions and sides -/

/-- The sign of a direction.
Source: `side_direction`, which is a decimal there. -/
def Direction.sign : Direction → ℚ
  | .long => 1
  | .short => -1

/-- The sign of a side. -/
def Side.sign : Side → ℚ
  | .buy => 1
  | .sell => -1

/-- There are two signs, one for buying and one for selling. -/
theorem Side.sign_eq_or (side : Side) : side.sign = 1 ∨ side.sign = -1 := by
  cases side <;> simp [sign]

/-- A sign taken twice is none. -/
theorem Side.sign_mul_sign (side : Side) : side.sign * side.sign = 1 := by
  cases side <;> norm_num [sign]

namespace Direction

/-- There are two signs, one for a long position and one for a short one. -/
theorem sign_eq_or (direction : Direction) : direction.sign = 1 ∨ direction.sign = -1 := by
  cases direction <;> simp [sign]

/-- To give a number the sign of a direction is to multiply it by that sign. -/
@[simp] theorem toRat_signed (direction : Direction) (d : Decimal) :
    (direction.signed d).toRat = direction.sign * d.toRat := by
  cases direction <;> simp [signed, sign]

/-- The other direction has the other sign. -/
@[simp] theorem sign_flip (direction : Direction) : direction.flip.sign = -direction.sign := by
  cases direction <;> simp [flip, sign]

/-- The direction of a number is short below zero, and long at zero and above.  That zero counts as
long matters nowhere but in the sign of a flat position. -/
theorem sign_of (d : Decimal) : (of d).sign = if d.toRat < 0 then -1 else 1 := by
  unfold of
  by_cases h : d.isNegative = true
  · rw [if_pos h, if_pos ((isNegative_iff d).mp h)]
    rfl
  · rw [if_neg h, if_neg fun hlt => h ((isNegative_iff d).mpr hlt)]
    rfl

end Direction

/-- The signed quantity of a trade is its quantity with the sign of the side. -/
@[simp] theorem Trade.toRat_signedQuantity (t : Trade) :
    t.signedQuantity.toRat = t.side.sign * t.quantity.toRat := by
  unfold Trade.signedQuantity
  cases t.side <;> simp [Side.sign]

/-- A trade of a positive quantity goes in the direction of its side. -/
theorem Trade.sign_direction {t : Trade} (hq : 0 < t.quantity.toRat) :
    (Direction.of t.signedQuantity).sign = t.side.sign := by
  rw [Direction.sign_of, Trade.toRat_signedQuantity]
  cases t.side <;> simp [Side.sign, hq, hq.le]

namespace Position

/-- The sign of the open amount; nothing counts as held. -/
def sign (p : Position) : ℚ := p.direction.sign

/-- The sign of a position, by the open amount. -/
theorem sign_eq (p : Position) : p.sign = if p.base.toRat < 0 then -1 else 1 :=
  Direction.sign_of p.base

/-- There are two signs for a position as well; one that is flat has the sign of a long one. -/
theorem sign_eq_or (p : Position) : p.sign = 1 ∨ p.sign = -1 := p.direction.sign_eq_or

/-- The sign of a position taken twice is none. -/
theorem sign_mul_sign (p : Position) : p.sign * p.sign = 1 := by
  rcases p.sign_eq_or with h | h <;> rw [h] <;> norm_num

/-- A sign does not change what a number is without its sign. -/
theorem abs_sign (p : Position) : |p.sign| = 1 := (abs_eq zero_le_one).mpr p.sign_eq_or

/-- The open amount without its sign is the open amount with the sign of the position. -/
theorem abs_base (p : Position) : |p.base.toRat| = p.sign * p.base.toRat := by
  rw [sign_eq]
  by_cases h : p.base.toRat < 0
  · rw [if_pos h, abs_of_neg h]
    ring
  · rw [if_neg h, abs_of_nonneg (not_lt.mp h), one_mul]

/-! ## Where a trade leads -/

section moved

variable {p : Position} {t : Trade}

/-- A trade that opens the position or goes in its direction leads away from zero, so something is
open afterwards. -/
theorem moved_ne_zero_of_extends (hq : 0 < t.quantity.toRat)
    (h : p.base.toRat = 0 ∨ t.side.sign = p.sign) :
    p.base.toRat + t.side.sign * t.quantity.toRat ≠ 0 := by
  have habs := p.abs_base ▸ abs_nonneg p.base.toRat
  rcases h with hbase | hside
  · rw [hbase, zero_add]
    rcases t.side.sign_eq_or with ht | ht <;> rw [ht] <;> linarith
  · rw [hside]
    rcases p.sign_eq_or with hp | hp <;> rw [hp] at habs ⊢ <;> linarith

/-- A trade that is larger than the position goes past zero. -/
theorem moved_ne_zero_of_lt (hside : t.side.sign = -p.sign)
    (hlt : |p.base.toRat| < t.quantity.toRat) :
    p.base.toRat + t.side.sign * t.quantity.toRat ≠ 0 := by
  rw [p.abs_base] at hlt
  rw [hside]
  rcases p.sign_eq_or with hp | hp <;> rw [hp] at hlt ⊢ <;> linarith

/-- A trade that leads to zero is as large as the position. -/
theorem quantity_eq_of_moved_eq_zero (hside : t.side.sign = -p.sign)
    (h : p.base.toRat + t.side.sign * t.quantity.toRat = 0) :
    t.quantity.toRat = |p.base.toRat| := by
  rw [p.abs_base]
  rw [hside] at h
  rcases p.sign_eq_or with hp | hp <;> rw [hp] at h ⊢ <;> linarith

end moved

/-! ## Exact operations of one trade -/

/-- The fee is added to the totals without rounding. -/
def ChargesExactly (p : Position) (t : Trade) (fee : Decimal) : Prop :=
  (t.fee.isZero = false → ExactSum (p.fees.getD t.feeCurrency .zero) t.fee fun _ => True) ∧
    ExactSum p.feeTotal fee fun _ => True

/-- The quote currency is moved without rounding. -/
def SettlesExactly (p : Position) (t : Trade) : Prop :=
  ExactProduct t.signedQuantity t.price fun paid =>
    ExactDifference p.quote paid fun _ => True

/-- Nothing is open, or both unit costs are in range. -/
def HasUnitCosts (base cost netCost : Decimal) : Prop :=
  base.isZero = true ∨
    (cost.div? base.abs).isSome = true ∧ (netCost.div? base.abs).isSome = true

/-- The position is opened or extended without rounding. -/
def IncreasesExactly (p : Position) (t : Trade) (fee : Decimal) : Prop :=
  ExactProduct t.price t.quantity fun notional =>
  ExactSum p.costBasis notional fun cost =>
  ExactSum notional ((Direction.of t.signedQuantity).signed fee) fun netNotional =>
  ExactSum p.netCostBasis netNotional fun netCost =>
  ExactSum p.base t.signedQuantity fun base =>
  HasUnitCosts base cost netCost

/-- An amount is opened in a direction without rounding, which makes the open amount `base`. -/
def OpensExactly (direction : Direction) (t : Trade) (opened fee base : Decimal) : Prop :=
  ExactProduct t.price opened fun notional =>
  ExactSum notional (direction.signed fee) fun netNotional =>
  HasUnitCosts base notional netNotional

/-- The gains of a close are found and added up without rounding. -/
def EarnsExactly (p : Position) (t : Trade) (closed closingFee cost netCost : Decimal) : Prop :=
  ExactProduct t.price closed fun proceeds =>
  ExactDifference proceeds cost fun gross =>
  ExactDifference proceeds netCost fun netOfCost =>
  ExactDifference (p.direction.signed netOfCost) closingFee fun net =>
  ExactSum p.grossProfit (p.direction.signed gross) fun _ =>
  ExactSum p.netProfit net fun _ => True

/-- The position is reduced, closed or reversed without rounding more than the shares. -/
def DecreasesExactly (p : Position) (t : Trade) (fee : Decimal) : Prop :=
  ExactDifference t.quantity (min t.quantity p.base.abs) fun opened =>
  Yields (closingFee t fee (min t.quantity p.base.abs) opened) fun closingFee =>
  ExactDifference fee closingFee fun openingFee =>
  Yields (p.release (min t.quantity p.base.abs)) fun released =>
  p.EarnsExactly t (min t.quantity p.base.abs) closingFee released.1 released.2 ∧
  ExactDifference p.costBasis released.1 fun cost =>
  ExactDifference p.netCostBasis released.2 fun netCost =>
  ExactSum p.base t.signedQuantity fun base =>
  if opened.isPositive = true then OpensExactly p.direction.flip t opened openingFee base
  else HasUnitCosts base cost netCost

/-- A trade is applied without rounding more than the shares and the conversion of the fee. -/
def AppliesExactly (terms : Terms) (p : Position) (t : Trade) : Prop :=
  t.quantity.isPositive = true →
    Yields (terms.feeInQuote t) fun fee =>
      p.ChargesExactly t fee ∧ p.SettlesExactly t ∧
        if p.extendedBy t = true then p.IncreasesExactly t fee else p.DecreasesExactly t fee

/-- A list of trades is applied to the end, each of them exactly. -/
def AppliesAllExactly (terms : Terms) : Position → List Trade → Prop
  | _, [] => True
  | p, t :: ts =>
    p.AppliesExactly terms t ∧ Yields (p.after terms t) fun p => p.AppliesAllExactly terms ts

section decidable

variable (terms : Terms) (p : Position) (t : Trade) (fee : Decimal)

instance : Decidable (p.ChargesExactly t fee) := by
  unfold ChargesExactly
  infer_instance

instance : Decidable (p.SettlesExactly t) := by
  unfold SettlesExactly
  infer_instance

instance (base cost netCost : Decimal) : Decidable (HasUnitCosts base cost netCost) := by
  unfold HasUnitCosts
  infer_instance

instance : Decidable (p.IncreasesExactly t fee) := by
  unfold IncreasesExactly
  infer_instance

instance (direction : Direction) (opened base : Decimal) :
    Decidable (OpensExactly direction t opened fee base) := by
  unfold OpensExactly
  infer_instance

instance (closed closingFee cost netCost : Decimal) :
    Decidable (p.EarnsExactly t closed closingFee cost netCost) := by
  unfold EarnsExactly
  infer_instance

instance : Decidable (p.DecreasesExactly t fee) := by
  unfold DecreasesExactly
  infer_instance

instance : Decidable (p.AppliesExactly terms t) := by
  unfold AppliesExactly
  infer_instance

/-- Whether a run is exact can be decided by running it. -/
instance decidableAppliesAllExactly :
    (p : Position) → (ts : List Trade) → Decidable (p.AppliesAllExactly terms ts)
  | _, [] => isTrue trivial
  | p, t :: ts =>
    have := fun p => decidableAppliesAllExactly p ts
    inferInstanceAs (Decidable
      (p.AppliesExactly terms t ∧ Yields (p.after terms t) fun p => p.AppliesAllExactly terms ts))

end decidable

end Position

/-! ## A sample market

The predicates can be evaluated.  The trades below are the ones on which later modules do so. -/

/-- A market without exchange rates. -/
def sampleTerms : Terms := ⟨⟨"BTCUSDT", "BTC", "USDT", 2, 6⟩, .unknown⟩

/-- A trade in whole units, with a fee in the quote currency. -/
def sampleTrade (id : UInt64) (side : Side) (price quantity fee : Int64) : Trade where
  id
  symbol := "BTCUSDT"
  orderId := id
  side
  price := .ofInt64 price
  quantity := .ofInt64 quantity
  quoteQuantity := .ofInt64 (price * quantity)
  fee := .ofInt64 fee
  feeCurrency := "USDT"
  time := ⟨1000 * id.toInt64⟩
  isMaker := false

/-- A partial close, then a reversal, then a close.  The share of the cost that is released first
and the share of the fee that belongs to the reversal are rounded. -/
def sampleHistory : List Trade := [
  sampleTrade 1 .buy 100 1 1,
  sampleTrade 2 .buy 101 2 1,
  sampleTrade 3 .sell 103 1 1,
  sampleTrade 4 .sell 99 3 1,
  sampleTrade 5 .buy 97 1 1]

end CostBasis
