import CostBasis.Proofs.Decimal.TrailingZeros
import CostBasis.Proofs.Position.ExactStep

/-!
# Trailing zeros in an account

A trade that is given with other trailing zeros is the same trade.  Positions that were the same in
this sense stay the same: every step of the accounting is a calculation whose operations agree, and
the cases that it distinguishes ask for signs and comparisons of numbers only.

Main statements: `Position.apply_same`, `Position.unrealizedProfit_same`.
-/

namespace CostBasis

open Decimal (add_same sub_same mul_same div_same div?_same)

/-! ## The same records -/

/-- Two trades that differ in trailing zeros at most.  This is the equality of trades in the source,
where two decimals are equal if they are the same number. -/
@[mk_iff]
structure Trade.Same (t u : Trade) : Prop where
  id : t.id = u.id
  symbol : t.symbol = u.symbol
  orderId : t.orderId = u.orderId
  side : t.side = u.side
  price : t.price.Same u.price
  quantity : t.quantity.Same u.quantity
  quoteQuantity : t.quoteQuantity.Same u.quoteQuantity
  fee : t.fee.Same u.fee
  feeCurrency : t.feeCurrency = u.feeCurrency
  time : t.time = u.time
  isMaker : t.isMaker = u.isMaker

/-- Two gains that differ in trailing zeros at most. -/
structure Gain.Same (g h : Gain) : Prop where
  gross : g.gross.Same h.gross
  net : g.net.Same h.net

/-- Totals of the same currencies that differ in trailing zeros at most. -/
def FeeTotals.Same (m n : FeeTotals) : Prop := ∀ currency, m.amount? currency = n.amount? currency

/-- Two positions that differ in trailing zeros at most. -/
structure Position.Same (p q : Position) : Prop where
  base : p.base.Same q.base
  quote : p.quote.Same q.quote
  averageCost : p.averageCost.Same q.averageCost
  netAverageCost : p.netAverageCost.Same q.netAverageCost
  grossProfit : p.grossProfit.Same q.grossProfit
  netProfit : p.netProfit.Same q.netProfit
  feeTotal : p.feeTotal.Same q.feeTotal
  fees : p.fees.Same q.fees
  tradeCount : p.tradeCount = q.tradeCount
  updatedAt : p.updatedAt = q.updatedAt
  costBasis : p.costBasis.Same q.costBasis
  netCostBasis : p.netCostBasis.Same q.netCostBasis

namespace Trade.Same

variable {t u v : Trade}

instance (t u : Trade) : Decidable (t.Same u) := decidable_of_iff _ (Trade.same_iff t u).symm

/-- A trade is the same as itself. -/
@[refl] theorem refl (t : Trade) : t.Same t := by
  constructor <;> rfl

/-- Trades that are the same as a third one are the same, field by field. -/
theorem trans (h : t.Same u) (h' : u.Same v) : t.Same v where
  id := h.id.trans h'.id
  symbol := h.symbol.trans h'.symbol
  orderId := h.orderId.trans h'.orderId
  side := h.side.trans h'.side
  price := h.price.trans h'.price
  quantity := h.quantity.trans h'.quantity
  quoteQuantity := h.quoteQuantity.trans h'.quoteQuantity
  fee := h.fee.trans h'.fee
  feeCurrency := h.feeCurrency.trans h'.feeCurrency
  time := h.time.trans h'.time
  isMaker := h.isMaker.trans h'.isMaker

instance : IsTrans Trade Trade.Same := ⟨fun _ _ _ => trans⟩

/-- The sign that a side gives to a quantity does not look at its trailing zeros. -/
theorem signedQuantity (h : t.Same u) : t.signedQuantity.Same u.signedQuantity := by
  unfold Trade.signedQuantity
  rw [h.side]
  cases u.side with
  | buy => exact h.quantity
  | sell => exact h.quantity.neg

/-- Trades that are the same have one key, so they are duplicates of one another. -/
theorem key (h : t.Same u) : t.key = u.key := by
  rw [Trade.key, Trade.key, h.symbol, h.id]

/-- What is equal for trades that are the same is equal for lists of them, one by one. -/
theorem map_eq {α : Type} {f : Trade → α} (hf : ∀ {t u : Trade}, t.Same u → f t = f u)
    {ts us : List Trade} (h : List.Forall₂ Trade.Same ts us) : ts.map f = us.map f := by
  rw [← List.forall₂_eq_eq_eq, List.forall₂_map_left_iff, List.forall₂_map_right_iff]
  exact h.imp fun _ _ ht => hf ht

/-- Of lists of trades that are the same the same trades are left, whatever they are chosen by, as
long as it does not tell such trades apart. -/
theorem filter {P : Trade → Bool} (hP : ∀ {t u : Trade}, t.Same u → P t = P u)
    {ts us : List Trade} (h : List.Forall₂ Trade.Same ts us) :
    List.Forall₂ Trade.Same (ts.filter P) (us.filter P) :=
  List.rel_filter (fun _ _ ht => iff_of_eq (congrArg (· = true) (hP ht))) h

end Trade.Same

/-! ## Fees -/

/-- Totals are the same as themselves. -/
@[refl] theorem FeeTotals.Same.refl (m : FeeTotals) : m.Same m := fun _ => rfl

/-- One more fee in a currency leaves totals the same that were the same, or is too much for both of
them. -/
theorem FeeTotals.Same.charge {m n : FeeTotals} {a b : Decimal} (h : m.Same n) (currency : String)
    (hfee : a.Same b) : Agree FeeTotals.Same (m.charge currency a) (n.charge currency b) := by
  have htotal : (m.getD currency .zero).Same (n.getD currency .zero) := by
    rw [Decimal.Same, toRat_getD, toRat_getD, h currency]
  refine (add_same htotal hfee).map fun total total' hsum other => ?_
  rw [amount?_insert, amount?_insert, hsum, h other]

/-- The fee of a trade is valued in the same way, however many zeros it is given with.  The
valuation asks whether it is zero and for the names of currencies, and a price or a rate is only
multiplied by. -/
theorem Terms.feeInQuote_same (terms : Terms) {t u : Trade} (h : t.Same u) :
    Agree Decimal.Same (terms.feeInQuote t) (terms.feeInQuote u) := by
  unfold Terms.feeInQuote Terms.feeValuation
  rw [h.fee.isZero, h.feeCurrency]
  split_ifs
  · exact .ok rfl
  · exact .ok h.fee
  · exact mul_same h.fee h.price
  · cases terms.rates.rate? u.feeCurrency terms.market.quoteCurrency with
    | none => exact .ok rfl
    | some rate => exact mul_same h.fee rfl

/-- To change the sign of a number is to change it however it is written. -/
theorem Direction.signed_same (direction : Direction) {a b : Decimal} (h : a.Same b) :
    (direction.signed a).Same (direction.signed b) := by
  cases direction with
  | long => exact h
  | short => exact h.neg

/-- Numbers that are the same are both held or both owed. -/
theorem Direction.of_same {a b : Decimal} (h : a.Same b) : Direction.of a = Direction.of b := by
  rw [Direction.of, Direction.of, h.isNegative]

namespace Position

variable {terms : Terms} {p q : Position} {t u : Trade} {fee fee' : Decimal}

/-- A position is the same as itself. -/
@[refl] theorem Same.refl (p : Position) : p.Same p := by
  constructor <;> rfl

/-! ## The steps of a trade -/

/-- The fee of a trade is added to totals that stay the same, or overflows both of them. -/
theorem chargeFee_same (h : p.Same q) (ht : t.Same u) (hfee : fee.Same fee') :
    Agree Position.Same (p.chargeFee t fee) (q.chargeFee u fee') := by
  unfold chargeFee
  rw [ht.fee.isZero, ht.feeCurrency]
  refine Agree.ite_bind (.ok h.fees) (h.fees.charge _ ht.fee) fun fees fees' hfees => ?_
  refine (add_same h.feeTotal hfee).bind fun feeTotal feeTotal' hfeeTotal => ?_
  exact .ok { h with fees := hfees, feeTotal := hfeeTotal }

/-- The quote currency moves by the same amount, and the trade is counted on both sides; or the sum
is out of range on both. -/
theorem settle_same (h : p.Same q) (ht : t.Same u) :
    Agree Position.Same (p.settle t) (q.settle u) := by
  refine (mul_same ht.signedQuantity ht.price).bind fun paid paid' hpaid => ?_
  refine (sub_same h.quote hpaid).bind fun quote quote' hquote => ?_
  exact .ok { h with
    quote := hquote
    tradeCount := congrArg (· + 1) h.tradeCount
    updatedAt := congrArg some ht.time }

/-- Whether a trade opens or extends a position depends on signs alone. -/
theorem extendedBy_same (h : p.Same q) (ht : t.Same u) : p.extendedBy t = q.extendedBy u := by
  rw [extendedBy, extendedBy, h.base.isZero, h.base.isPositive, ht.signedQuantity.isPositive]

/-- A trade in the direction of the position adds the same cost, before fees and after them. -/
theorem increase_same (h : p.Same q) (ht : t.Same u) (hfee : fee.Same fee') :
    Agree Position.Same (p.increase t fee) (q.increase u fee') := by
  refine (mul_same ht.price ht.quantity).bind fun notional notional' hnotional => ?_
  refine (add_same h.costBasis hnotional).bind fun costBasis costBasis' hcostBasis => ?_
  rw [Direction.of_same ht.signedQuantity]
  refine (add_same hnotional (Direction.signed_same _ hfee)).bind fun net net' hnet => ?_
  refine (add_same h.netCostBasis hnet).bind fun netCostBasis netCostBasis' hnetCostBasis => ?_
  refine (add_same h.base ht.signedQuantity).bind fun base base' hbase => ?_
  exact .ok { h with costBasis := hcostBasis, netCostBasis := hnetCostBasis, base := hbase }

section parts

variable {a a' b b' c c' : Decimal}

/-- A share of an amount is the same number, since it is calculated from numbers and rounded to a
fixed place. -/
theorem share_same (ha : a.Same a') (hb : b.Same b') (hc : c.Same c') :
    Agree Decimal.Same (share a b c) (share a' b' c') := by
  refine (mul_same ha hb).bind fun product product' hproduct => ?_
  refine (div_same hproduct hc).bind fun quotient quotient' hquotient => ?_
  exact .ok (hquotient.roundTo _)

/-- The part of a fee that belongs to what is closed is the same number. -/
theorem closingFee_same (ht : t.Same u) (ha : a.Same a') (hb : b.Same b') (hc : c.Same c') :
    Agree Decimal.Same (closingFee t a b c) (closingFee u a' b' c') := by
  unfold closingFee
  rw [hc.isZero]
  split_ifs
  · exact .ok ha
  · exact share_same ha hb ht.quantity

/-- The costs that are released are the same numbers.  Whether all is closed is a comparison of
numbers. -/
theorem release_same (h : p.Same q) (ha : a.Same a') :
    Agree (Both Decimal.Same Decimal.Same) (p.release a) (q.release a') := by
  unfold release
  rw [ha.isEqual h.base.abs]
  split_ifs
  · exact .ok ⟨h.costBasis, h.netCostBasis⟩
  · refine (share_same h.costBasis ha h.base.abs).bind fun cost cost' hcost => ?_
    refine (share_same h.netCostBasis ha h.base.abs).bind fun netCost netCost' hnetCost => ?_
    exact .ok ⟨hcost, hnetCost⟩

/-- What a trade opens costs the same. -/
theorem opening_same (direction : Direction) (ht : t.Same u) (ha : a.Same a') (hb : b.Same b') :
    Agree (Both Decimal.Same Decimal.Same) (opening direction t a b)
      (opening direction u a' b') := by
  refine (mul_same ht.price ha).bind fun notional notional' hnotional => ?_
  refine (add_same hnotional (Direction.signed_same _ hb)).bind fun net net' hnet => ?_
  exact .ok ⟨hnotional, hnet⟩

end parts

/-- A trade against the position earns the same and leaves the same.  Every line of the calculation
is an operation that agrees on numbers that are the same, so they are gone through one by one. -/
theorem decrease_same (h : p.Same q) (ht : t.Same u) (hfee : fee.Same fee') :
    Agree (Both Gain.Same Position.Same) (p.decrease t fee) (q.decrease u fee') := by
  have hclosed := ht.quantity.min h.base.abs
  have hdirection : p.direction = q.direction := Direction.of_same h.base
  unfold decrease
  rw [hdirection]
  refine (sub_same ht.quantity hclosed).bind fun opened opened' hopened => ?_
  refine (closingFee_same ht hfee hclosed hopened).bind fun closing closing' hclosing => ?_
  refine (sub_same hfee hclosing).bind fun opening opening' hopening => ?_
  refine (release_same h hclosed).bind fun costs costs' hcosts => ?_
  refine (mul_same ht.price hclosed).bind fun proceeds proceeds' hproceeds => ?_
  refine (sub_same hproceeds hcosts.1).bind fun gross gross' hgross => ?_
  refine (sub_same hproceeds hcosts.2).bind fun netOfCost netOfCost' hnetOfCost => ?_
  refine (sub_same (Direction.signed_same _ hnetOfCost) hclosing).bind fun net net' hnet => ?_
  refine (sub_same h.costBasis hcosts.1).bind fun costBasis costBasis' hcostBasis => ?_
  refine (sub_same h.netCostBasis hcosts.2).bind fun netBasis netBasis' hnetBasis => ?_
  refine (add_same h.base ht.signedQuantity).bind fun base base' hbase => ?_
  rw [hopened.isPositive]
  refine Agree.ite_bind (opening_same _ ht hopened hopening) (.ok ⟨hcostBasis, hnetBasis⟩)
    fun left left' hleft => ?_
  have hgross := Direction.signed_same q.direction hgross
  refine (add_same h.grossProfit hgross).bind fun grossProfit grossProfit' hgrossProfit => ?_
  refine (add_same h.netProfit hnet).bind fun netProfit netProfit' hnetProfit => ?_
  exact .ok ⟨⟨hgross, hnet⟩, { h with
    base := hbase
    costBasis := hleft.1
    netCostBasis := hleft.2
    grossProfit := hgrossProfit
    netProfit := hnetProfit }⟩

/-- A trade moves the open amount in the same way, and has earned the same if it has earned
something. -/
theorem move_same (h : p.Same q) (ht : t.Same u) (hfee : fee.Same fee') :
    Agree (Both (Option.Rel Gain.Same) Position.Same) (p.move t fee) (q.move u fee') := by
  unfold move
  rw [extendedBy_same h ht]
  split_ifs
  · refine (increase_same h ht hfee).bind fun p' q' h' => ?_
    exact .ok ⟨.none, h'⟩
  · refine (decrease_same h ht hfee).bind fun x y hxy => ?_
    exact .ok ⟨.some hxy.1, hxy.2⟩

/-- The costs of one unit are the same numbers, and they are cleared on both sides or on neither,
since whether a quotient is in range is a matter of numbers. -/
theorem refreshAverages_same (h : p.Same q) (scale : Nat) :
    (p.refreshAverages scale).Same (q.refreshAverages scale) := by
  have hcost := div?_same h.costBasis h.base.abs
  have hnetCost := div?_same h.netCostBasis h.base.abs
  unfold refreshAverages
  generalize p.costBasis.div? p.base.abs = cost, q.costBasis.div? q.base.abs = cost',
    p.netCostBasis.div? p.base.abs = netCost, q.netCostBasis.div? q.base.abs = netCost'
    at hcost hnetCost ⊢
  have hcleared : Position.Same
      { p with
        costBasis := .zero, netCostBasis := .zero, averageCost := .zero, netAverageCost := .zero }
      { q with
        costBasis := .zero, netCostBasis := .zero, averageCost := .zero,
        netAverageCost := .zero } :=
    { h with
      costBasis := rfl
      netCostBasis := rfl
      averageCost := rfl
      netAverageCost := rfl }
  cases hcost with
  | none => exact hcleared
  | some hcost =>
      cases hnetCost with
      | none => exact hcleared
      | some hnetCost =>
          exact { h with averageCost := hcost.roundTo _, netAverageCost := hnetCost.roundTo _ }

/-! ## Whole trades -/

/-- **The same trade leaves the same position the same**, and earns the same.  Where one of the two
runs meets a fault the other one meets it too. -/
theorem apply_same (terms : Terms) (h : p.Same q) (ht : t.Same u) :
    Agree (Both (Option.Rel Gain.Same) Position.Same) (p.apply terms t) (q.apply terms u) := by
  unfold apply
  rw [ht.quantity.isPositive]
  split_ifs
  · refine (terms.feeInQuote_same ht).bind fun fee fee' hfee => ?_
    refine (chargeFee_same h ht hfee).bind fun p' q' hcharged => ?_
    refine (settle_same hcharged ht).bind fun p' q' hsettled => ?_
    refine (move_same hsettled ht hfee).bind fun x y hmoved => ?_
    exact .ok ⟨hmoved.1, refreshAverages_same hmoved.2 _⟩
  · exact .ok ⟨.none, h⟩

/-- The position after the same trade is the same. -/
theorem after_same (terms : Terms) (h : p.Same q) (ht : t.Same u) :
    Agree Position.Same (p.after terms t) (q.after terms u) :=
  (apply_same terms h ht).map fun _ _ hanswer => hanswer.2

/-- What closing a position would earn is the same number for positions that are the same. -/
theorem unrealizedProfit_same (h : p.Same q) (price : Decimal) :
    Agree Decimal.Same (p.unrealizedProfit price) (q.unrealizedProfit price) := by
  have hdirection : p.direction = q.direction := Direction.of_same h.base
  unfold unrealizedProfit
  rw [hdirection]
  refine (mul_same (.refl price) h.base.abs).bind fun value value' hvalue => ?_
  refine (sub_same hvalue h.costBasis).bind fun profit profit' hprofit => ?_
  exact .ok (Direction.signed_same _ hprofit)

end Position

/-- A trade of the sample history with two zeros behind the point of its price. -/
def samplePadded : Trade :=
  { sampleTrade 3 .sell 103 1 1 with price := ⟨10300, 2, by decide, by decide, by decide⟩ }

end CostBasis
