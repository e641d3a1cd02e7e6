import CostBasis.Proofs.Position.Totals
import CostBasis.Proofs.Position.TrailingZeros

/-!
# Reversals

A trade against the position that is larger than it closes all of it and opens the other direction
with the rest, in one step.  It might as well have been two trades at the same price: one that
closes the position, and one that opens the other direction.  Of the fee, the first has the share
that belongs to the close, rounded as in the one step, and the second has the rest.

The one step and the two are calculated along different paths.  The one step sets the new costs in
place of the old ones; of the two, the first releases all of the costs and clears them, and the
second adds its own to nothing.  Where the sums, the differences and the products are exact, the
numbers are the same, and only the count of the trades is not.

Main statement: `reversal_is_close_then_open`.
-/

namespace CostBasis

open Decimal

/-- A part of a trade: at the same price, on the same side and at the same time, with a fee in the
same currency. -/
structure Trade.IsPart (t : Trade) (quantity fee : ℚ) (u : Trade) : Prop where
  side : u.side = t.side
  price : u.price.toRat = t.price.toRat
  time : u.time = t.time
  feeCurrency : u.feeCurrency = t.feeCurrency
  quantity : u.quantity.toRat = quantity
  fee : u.fee.toRat = fee

/-- A fee in the quote currency counts as it is, also if there is none. -/
theorem Terms.feeInQuote_of_quoted {terms : Terms} {t : Trade}
    (h : t.feeCurrency = terms.market.quoteCurrency) : terms.feeInQuote t = .ok t.fee := by
  unfold feeInQuote feeValuation
  by_cases hzero : t.fee.isZero = true
  · rw [if_pos hzero, eq_zero_of_isZero hzero]
  · rw [if_neg hzero, if_pos h]

namespace Position

variable {terms : Terms} {p q : Position} {t u : Trade} {gain gain' : Gain}

/-- The share of no fee is none, however small a part of the whole it is for. -/
theorem share_zero {part whole d : Decimal} (h : share .zero part whole = .ok d) : d.toRat = 0 := by
  obtain ⟨product, hproduct, h⟩ := bind_eq_ok.mp h
  obtain ⟨quotient, hquotient, h⟩ := bind_eq_ok.mp h
  obtain rfl := Except.ok.inj ((zero_mul_eq part).symm.trans hproduct)
  unfold div at hquotient
  split at hquotient
  · cases hquotient
  next hwhole =>
    rw [zero_div? hwhole] at hquotient
    obtain rfl := Except.ok.inj hquotient
    obtain rfl := Except.ok.inj h
    rw [roundTo_zero, toRat_zero]

/-! ## Positions whose unit costs are derived -/

/-- Positions with unit costs that are derived from the costs are the same if they are the same but
for these. -/
theorem Same.of_refreshed {scale : ℕ} (hp : p.refreshAverages scale = p)
    (hq : q.refreshAverages scale = q)
    (h : Position.Same { p with averageCost := .zero, netAverageCost := .zero }
      { q with averageCost := .zero, netAverageCost := .zero }) : p.Same q := by
  have hforget : ∀ r : Position,
      ({ r with averageCost := .zero, netAverageCost := .zero } : Position).refreshAverages scale =
        r.refreshAverages scale := by
    intro r
    cases hcost : r.costBasis.div? r.base.abs <;>
      cases hnetCost : r.netCostBasis.div? r.base.abs <;>
        simp only [refreshAverages, hcost, hnetCost]
  have hsame := refreshAverages_same h scale
  rwa [hforget, hforget, hp, hq] at hsame

/-- The count of the trades has nothing to do with the unit costs. -/
theorem refreshAverages_tradeCount (p : Position) (scale tradeCount : ℕ) :
    { p with tradeCount }.refreshAverages scale =
      { p.refreshAverages scale with tradeCount } := by
  cases hcost : p.costBasis.div? p.base.abs <;>
    cases hnetCost : p.netCostBasis.div? p.base.abs <;>
      simp only [refreshAverages, hcost, hnetCost]

/-! ## Exact trades with a fee in the quote currency -/

/-- A trade earns something if it goes against the position, and nothing if it extends it.  What is
earned may be zero. -/
theorem isSome_gain_of_apply {gain? : Option Gain} (hq : t.quantity.isPositive = true)
    (h : p.apply terms t = .ok (gain?, q)) : gain?.isSome = !p.extendedBy t := by
  obtain ⟨fee, charged, settled, moved, -, hcharged, hsettled, hmoved, -⟩ := apply_eq_ok hq h
  obtain ⟨fees, feeTotal, rfl⟩ := chargeFee_eq_ok hcharged
  obtain ⟨quote, rfl⟩ := settle_eq_ok hsettled
  cases moves_of_move hmoved with
  | extended hextends =>
      have hextends : p.extendedBy t = true := hextends
      rw [hextends]
      rfl
  | against hagainst =>
      have hagainst : ¬p.extendedBy t = true := hagainst
      rw [Bool.eq_false_iff.mpr hagainst]
      rfl

/-- What an exact trade does whose fee is in the quote currency. -/
structure QuotedStep (terms : Terms) (p : Position) (t : Trade) (gain? : Option Gain)
    (q : Position) : Prop where
  apply : p.apply terms t = .ok (gain?, q)
  step : p.ExactStep t t.fee q
  adds : p.Adds t t.fee gain? q
  earns : gain?.isSome = !p.extendedBy t
  updatedAt : q.updatedAt = some t.time
  refreshed : q.refreshAverages terms.market.averageCostScale = q

/-- What an exact trade does, put together from the step in numbers and the derived unit costs. -/
theorem quotedStep_of_exact (hq : 0 < t.quantity.toRat)
    (hquoted : t.feeCurrency = terms.market.quoteCurrency) (h : p.AppliesExactly terms t) :
    ∃ gain? q, p.QuotedStep terms t gain? q := by
  have hpositive := (isPositive_iff _).mpr hq
  obtain ⟨fee, q, hfee, hafter, hstep⟩ := exactStep_of_appliesExactly hpositive h
  obtain ⟨⟨gain?, q⟩, happly, rfl⟩ := map_eq_ok.mp hafter
  obtain rfl := Except.ok.inj ((Terms.feeInQuote_of_quoted hquoted).symm.trans hfee)
  obtain ⟨htime, hrefreshed⟩ := refreshed_of_apply hpositive happly
  exact ⟨gain?, q, happly, hstep, adds_of_apply hpositive hfee happly
    (addsExactly_of_appliesExactly hpositive h), isSome_gain_of_apply hpositive happly, htime,
    hrefreshed⟩

/-- What closing all of the position at a price earns, where some fee belongs to the close. -/
structure EarnsClose (p : Position) (price fee : ℚ) (gain : Gain) : Prop where
  gross : gain.gross.toRat = p.sign * (price * |p.base.toRat| - p.costBasis.toRat)
  net : gain.net.toRat = p.sign * (price * |p.base.toRat| - p.netCostBasis.toRat) - fee

/-- A position that is closed at a price, with a fee, earns the same in any way. -/
theorem EarnsClose.same {price fee : ℚ} (h : p.EarnsClose price fee gain)
    (h' : p.EarnsClose price fee gain') : gain.Same gain' :=
  ⟨h.gross.trans h'.gross.symm, h.net.trans h'.net.symm⟩

/-! ## The one step and the two -/

section steps

variable {gain? : Option Gain} {c : Decimal} {fee : ℚ} {m r : Position} {first second : Trade}

/-- A trade on the other side does not extend what is open. -/
theorem not_extends (hopen : p.base.toRat ≠ 0) (hside : t.side.sign = -p.sign) :
    ¬(p.base.toRat = 0 ∨ t.side.sign = p.sign) := by
  rw [not_or]
  refine ⟨hopen, fun hsame => ?_⟩
  rcases p.sign_eq_or with hp | hp <;> rw [hside, hp] at hsame <;> norm_num at hsame

/-- A trade on the other side earns something. -/
theorem QuotedStep.exists_gain (h : p.QuotedStep terms t gain? q) (hq : 0 < t.quantity.toRat)
    (hopen : p.base.toRat ≠ 0) (hside : t.side.sign = -p.sign) : ∃ gain, gain? = some gain := by
  rw [← Option.isSome_iff_exists, h.earns, Bool.not_eq_true', Bool.eq_false_iff, Ne,
    extendedBy_iff hq]
  exact not_extends hopen hside

/-- What a trade does that is larger than the position.  The costs are set anew, and the gain is
that of closing everything with a share of the fee. -/
theorem QuotedStep.of_reversal (h : p.QuotedStep terms t gain? q) (hopen : p.base.toRat ≠ 0)
    (hside : t.side.sign = -p.sign) (hlarger : |p.base.toRat| < t.quantity.toRat) :
    ∃ c gain, share t.fee p.base.abs t.quantity = .ok c ∧ gain? = some gain ∧
      p.EarnsClose t.price.toRat c.toRat gain ∧
      q.costBasis.toRat = t.price.toRat * (t.quantity.toRat - |p.base.toRat|) ∧
      q.netCostBasis.toRat = t.price.toRat * (t.quantity.toRat - |p.base.toRat|) -
        p.sign * (t.fee.toRat - c.toRat) := by
  obtain ⟨gain, rfl⟩ := h.exists_gain ((abs_nonneg _).trans_lt hlarger) hopen hside
  have hgross := h.adds.grossProfit
  have hnet := h.adds.netProfit
  rw [Option.elim_some] at hgross hnet
  cases h.step.costs with
  | increased side => exact absurd side (not_extends hopen hside)
  | reduced _ _ _ amount => exact absurd hlarger amount.not_gt
  | reversed c _ _ _ hshare cost netCost gross net =>
      exact ⟨c, gain, hshare, rfl, ⟨by linarith, by linarith⟩, cost, netCost⟩

/-- What a trade does that is as large as the position.  The gain is that of closing everything with
the whole fee, and nothing has a cost any more. -/
theorem QuotedStep.of_close (h : p.QuotedStep terms t gain? q) (hopen : p.base.toRat ≠ 0)
    (hside : t.side.sign = -p.sign) (hwhole : t.quantity.toRat = |p.base.toRat|) :
    ∃ gain, gain? = some gain ∧ p.EarnsClose t.price.toRat t.fee.toRat gain ∧
      q.base.toRat = 0 ∧ q.costBasis.toRat = 0 ∧ q.netCostBasis.toRat = 0 := by
  have hq : 0 < t.quantity.toRat := hwhole ▸ abs_pos.mpr hopen
  obtain ⟨gain, rfl⟩ := h.exists_gain hq hopen hside
  have hgross := h.adds.grossProfit
  have hnet := h.adds.netProfit
  rw [Option.elim_some] at hgross hnet
  cases h.step.costs with
  | increased side => exact absurd side (not_extends hopen hside)
  | reversed _ _ _ amount => exact absurd hwhole amount.ne'
  | reduced released _ _ _ hrelease cost netCost gross net =>
      obtain rfl := Except.ok.inj ((release_of_whole hwhole).symm.trans hrelease)
      rw [hwhole] at gross net
      have hbase : q.base.toRat = 0 := by
        rw [h.step.base, hside, hwhole, p.abs_base, neg_mul, ← mul_assoc, p.sign_mul_sign, one_mul,
          add_neg_cancel]
      exact ⟨gain, rfl, ⟨by linarith, by linarith⟩, hbase, by rw [cost, sub_self],
        by rw [netCost, sub_self]⟩

/-- What a trade does where nothing is open.  It earns nothing, its notional is the cost, and its
fee is in the net cost. -/
theorem QuotedStep.of_open (h : p.QuotedStep terms t gain? q) (hq : 0 < t.quantity.toRat)
    (hflat : p.base.toRat = 0) :
    gain? = none ∧ q.grossProfit = p.grossProfit ∧ q.netProfit = p.netProfit ∧
      q.costBasis.toRat = p.costBasis.toRat + t.price.toRat * t.quantity.toRat ∧
      q.netCostBasis.toRat = p.netCostBasis.toRat + t.price.toRat * t.quantity.toRat +
        t.side.sign * t.fee.toRat := by
  have hnone : gain? = none := by
    rw [← Option.not_isSome_iff_eq_none, h.earns, (extendedBy_iff hq).mpr (.inl hflat)]
    simp
  cases h.step.costs with
  | increased _ cost netCost gross net => exact ⟨hnone, gross, net, cost, netCost⟩
  | reduced _ hopen => exact absurd hflat hopen
  | reversed _ hopen => exact absurd hflat hopen

/-- A fee that is charged in two parts leads to the same totals, unless the parts cancel out.  A
total is there as soon as there has been a fee in its currency, so it matters whether a part is
zero. -/
theorem ExactStep.fees_same (h : p.ExactStep t t.fee q) (hfirst : p.ExactStep first first.fee m)
    (hsecond : m.ExactStep second second.fee r) (hcurrency : first.feeCurrency = t.feeCurrency)
    (hcurrency' : second.feeCurrency = t.feeCurrency)
    (hparts : t.fee.toRat = first.fee.toRat + second.fee.toRat)
    (hnone : t.fee.toRat = 0 → first.fee.toRat = 0) : q.fees.Same r.fees := by
  intro currency
  have hzero : ∀ d : Decimal, d.isZero = false ↔ d.toRat ≠ 0 := fun d => by
    rw [← Bool.not_eq_true, isZero_iff]
  rw [h.fees, hsecond.fees, hfirst.fees, hcurrency, hcurrency']
  by_cases hc : t.feeCurrency = currency
  · simp only [hzero, hc, and_true]
    by_cases ht : t.fee.toRat = 0
    · have hf := hnone ht
      have hs : second.fee.toRat = 0 := by linarith
      simp only [ht, hf, hs, ne_eq, not_true, if_false]
    · rw [hparts] at ht ⊢
      by_cases hf : first.fee.toRat = 0 <;> by_cases hs : second.fee.toRat = 0
      · exact absurd (by rw [hf, hs, add_zero]) ht
      all_goals simp [ht, hf, hs, add_assoc]
  · simp only [hc, and_false, if_false]

/-- **The one step leads to the same position as the two**, but for the count of the trades.  The
numbers are compared field by field, and then the unit costs follow. -/
theorem QuotedStep.same_of_parts {first? second? : Option Gain}
    (h : p.QuotedStep terms t gain? q) (hfirst : p.QuotedStep terms first first? m)
    (hsecond : m.QuotedStep terms second second? r) (hopen : p.base.toRat ≠ 0)
    (hside : t.side.sign = -p.sign) (hlarger : |p.base.toRat| < t.quantity.toRat)
    (hshare : share t.fee p.base.abs t.quantity = .ok c)
    (hpart : t.IsPart |p.base.toRat| c.toRat first)
    (hpart' : t.IsPart (t.quantity.toRat - |p.base.toRat|) (t.fee.toRat - c.toRat) second) :
    Position.Same { q with tradeCount := q.tradeCount + 1 } r := by
  have hside' : first.side.sign = -p.sign := by rw [hpart.side, hside]
  have hq' : 0 < second.quantity.toRat := by rw [hpart'.quantity, sub_pos]; exact hlarger
  obtain ⟨c', gain, hshare', rfl, hearns, hcost, hnetCost⟩ := h.of_reversal hopen hside hlarger
  obtain rfl := Except.ok.inj (hshare.symm.trans hshare')
  obtain ⟨gain', rfl, hearns', hflat, hclear, hclear'⟩ :=
    hfirst.of_close hopen hside' hpart.quantity
  obtain ⟨rfl, hgross, hnet, hcost', hnetCost'⟩ := hsecond.of_open hq' hflat
  rw [hpart.price, hpart.fee] at hearns'
  have hgains := hearns.same hearns'
  have hbase : p.sign * |p.base.toRat| = p.base.toRat := by
    rw [p.abs_base, ← mul_assoc, p.sign_mul_sign, one_mul]
  have hfees : t.fee.toRat = first.fee.toRat + second.fee.toRat := by
    rw [hpart.fee, hpart'.fee, add_sub_cancel]
  have hnone : t.fee.toRat = 0 → first.fee.toRat = 0 := by
    intro hzero
    rw [eq_zero_of_isZero ((isZero_iff _).mpr hzero)] at hshare
    rw [hpart.fee, share_zero hshare]
  refine .of_refreshed ?_ hsecond.refreshed
    { base := ?_, quote := ?_, averageCost := rfl, netAverageCost := rfl, grossProfit := ?_
      netProfit := ?_, feeTotal := ?_, fees := ?_, tradeCount := ?_, updatedAt := ?_
      costBasis := ?_, netCostBasis := ?_ }
  · rw [refreshAverages_tradeCount, h.refreshed]
  · show q.base.toRat = r.base.toRat
    rw [h.step.base, hsecond.step.base, hflat, hpart'.side, hpart'.quantity, hside]
    linear_combination (-1) * hbase
  · show q.quote.toRat = r.quote.toRat
    rw [h.step.quote, hsecond.step.quote, hfirst.step.quote, hpart.side, hpart'.side, hpart.price,
      hpart'.price, hpart.quantity, hpart'.quantity]
    ring
  · show q.grossProfit.toRat = r.grossProfit.toRat
    rw [hgross, h.adds.grossProfit, hfirst.adds.grossProfit, Option.elim_some, Option.elim_some,
      hgains.gross]
  · show q.netProfit.toRat = r.netProfit.toRat
    rw [hnet, h.adds.netProfit, hfirst.adds.netProfit, Option.elim_some, Option.elim_some,
      hgains.net]
  · show q.feeTotal.toRat = r.feeTotal.toRat
    rw [h.step.feeTotal, hsecond.step.feeTotal, hfirst.step.feeTotal, hfees, add_assoc]
  · have htotals := h.step.fees_same hfirst.step hsecond.step hpart.feeCurrency
      hpart'.feeCurrency hfees hnone
    exact htotals
  · show q.tradeCount + 1 = r.tradeCount
    rw [h.step.tradeCount, hsecond.step.tradeCount, hfirst.step.tradeCount]
  · show q.updatedAt = r.updatedAt
    rw [h.updatedAt, hsecond.updatedAt, hpart'.time]
  · show q.costBasis.toRat = r.costBasis.toRat
    rw [hcost, hcost', hclear, zero_add, hpart'.price, hpart'.quantity]
  · show q.netCostBasis.toRat = r.netCostBasis.toRat
    rw [hnetCost, hnetCost', hclear', zero_add, hpart'.price, hpart'.quantity, hpart'.side,
      hpart'.fee, hside, neg_mul, ← sub_eq_add_neg]

end steps

end Position

/-- **A reversal is a close followed by an opening.**  A trade goes against a position that is open,
and is larger than it; its fee is in the quote currency, and it is applied exactly.  Then it earns
something, and the share of its fee that belongs to the close can be found.  Take two trades at the
same price, on the same side and at the same time, the first as large as the position and with that
share of the fee, the second with the rest of the quantity and of the fee.  If they are applied
exactly one after the other, then the first earns what the one trade earns and leaves nothing open,
the second earns nothing, and they lead to the same position, where one more trade is counted.
Source: specification, section A3. -/
theorem reversal_is_close_then_open {terms : Terms} {p : Position} {t : Trade}
    (hopen : p.base.toRat ≠ 0) (hside : t.side.sign = -p.sign)
    (hlarger : |p.base.toRat| < t.quantity.toRat)
    (hquoted : t.feeCurrency = terms.market.quoteCurrency) (hexact : p.AppliesExactly terms t) :
    ∃ c gain q, Position.share t.fee p.base.abs t.quantity = .ok c ∧
      p.apply terms t = .ok (some gain, q) ∧
      ∀ first second, t.IsPart |p.base.toRat| c.toRat first →
        t.IsPart (t.quantity.toRat - |p.base.toRat|) (t.fee.toRat - c.toRat) second →
        p.AppliesAllExactly terms [first, second] →
          ∃ gain' middle r, p.apply terms first = .ok (some gain', middle) ∧ gain.Same gain' ∧
            middle.base.toRat = 0 ∧ middle.apply terms second = .ok (none, r) ∧
            Position.Same { q with tradeCount := q.tradeCount + 1 } r := by
  have hq : 0 < t.quantity.toRat := (abs_nonneg _).trans_lt hlarger
  obtain ⟨gain?, q, h⟩ := Position.quotedStep_of_exact hq hquoted hexact
  obtain ⟨c, gain, hshare, rfl, hearns, -⟩ := h.of_reversal hopen hside hlarger
  refine ⟨c, gain, q, hshare, h.apply, fun first second hpart hpart' hexact' => ?_⟩
  obtain ⟨hexactFirst, middle, hmiddle, hexactSecond, -⟩ := hexact'
  have hqFirst : 0 < first.quantity.toRat := by rw [hpart.quantity]; exact abs_pos.mpr hopen
  have hqSecond : 0 < second.quantity.toRat := by rw [hpart'.quantity, sub_pos]; exact hlarger
  obtain ⟨first?, m, hfirst⟩ :=
    Position.quotedStep_of_exact hqFirst (hpart.feeCurrency.trans hquoted) hexactFirst
  obtain rfl : m = middle := by
    rw [Position.after, hfirst.apply] at hmiddle
    exact Except.ok.inj hmiddle
  obtain ⟨second?, r, hsecond⟩ :=
    Position.quotedStep_of_exact hqSecond (hpart'.feeCurrency.trans hquoted) hexactSecond
  have hsame := h.same_of_parts hfirst hsecond hopen hside hlarger hshare hpart hpart'
  obtain ⟨gain', rfl, hearns', hflat, -⟩ :=
    hfirst.of_close hopen (hpart.side ▸ hside) hpart.quantity
  obtain ⟨rfl, -⟩ := hsecond.of_open hqSecond hflat
  rw [hpart.price, hpart.fee] at hearns'
  exact ⟨gain', m, r, hfirst.apply, hearns.same hearns', hflat, hsecond.apply, hsame⟩

/-- A sale that reverses the position. -/
def sampleTurn : Trade := sampleTrade 4 .sell 99 3 1

/-- The part of the sale that closes the position. -/
def sampleTurnClosing : Trade :=
  { sampleTrade 4 .sell 99 2 0 with
    fee := ⟨6666666666666667, 16, by decide, by decide, by decide⟩ }

/-- The part of the sale that opens the other direction. -/
def sampleTurnOpening : Trade :=
  { sampleTrade 4 .sell 99 1 0 with
    fee := ⟨3333333333333333, 16, by decide, by decide, by decide⟩ }

/-- The sale takes a position of two units to one of minus one, at once or in two trades, of which
the first has two thirds of the fee. -/
theorem reversal_is_close_then_open_sampleTurn :
    Yields (Position.flat.afterAll sampleTerms (sampleHistory.take 3)) fun p =>
      ∃ gain q gain' middle r, p.base.toRat = 2 ∧
        p.apply sampleTerms sampleTurn = .ok (some gain, q) ∧
        p.apply sampleTerms sampleTurnClosing = .ok (some gain', middle) ∧ gain.Same gain' ∧
        middle.apply sampleTerms sampleTurnOpening = .ok (none, r) ∧
        Position.Same { q with tradeCount := q.tradeCount + 1 } r := by
  have hrun : Yields (Position.flat.afterAll sampleTerms (sampleHistory.take 3)) fun p =>
      p.base.toRat = 2 ∧ p.sign = 1 ∧ p.AppliesExactly sampleTerms sampleTurn ∧
        p.AppliesAllExactly sampleTerms [sampleTurnClosing, sampleTurnOpening] ∧
        Position.share sampleTurn.fee p.base.abs sampleTurn.quantity =
          .ok sampleTurnClosing.fee := by decide +kernel
  obtain ⟨p, hp, hbase, hsign, hexact, hexact', hshare⟩ := hrun
  have habs : |p.base.toRat| = 2 := by rw [hbase]; norm_num
  have hopen : p.base.toRat ≠ 0 := by rw [hbase]; norm_num
  have hside : sampleTurn.side.sign = -p.sign := by rw [hsign]; rfl
  have hlarger : |p.base.toRat| < sampleTurn.quantity.toRat := by rw [habs]; decide +kernel
  obtain ⟨c, gain, q, hshare', happly, hparts⟩ :=
    reversal_is_close_then_open hopen hside hlarger rfl hexact
  obtain rfl := Except.ok.inj (hshare.symm.trans hshare')
  rw [habs] at hparts
  obtain ⟨gain', middle, r, hfirst, hgain, -, hsecond, hsame⟩ := hparts sampleTurnClosing
    sampleTurnOpening ⟨rfl, rfl, rfl, rfl, by decide +kernel, rfl⟩
    ⟨rfl, rfl, rfl, rfl, by decide +kernel, by decide +kernel⟩ hexact'
  exact ⟨p, hp, gain, q, gain', middle, r, hbase, happly, hfirst, hgain, hsecond, hsame⟩

end CostBasis
