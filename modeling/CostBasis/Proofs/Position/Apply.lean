import CostBasis.Proofs.Decimal.Number
import CostBasis.Position

/-!
# Trades in any run

What can be said of a trade whatever is rounded on the way: which steps it takes and what each of
them changes, that it is counted once if it has an effect, that what it earns is added to the
profits, and what it adds to a run that it ends.

Main statements: `apply_eq_ok`, `effect_of_apply`, `earns_of_apply`, `afterAll_append_singleton`.
-/

namespace CostBasis

namespace Position

variable {terms : Terms} {p q : Position} {t : Trade} {fee : Decimal}

/-- The steps of a trade that has an effect: its fee is valued and charged, the trade is settled,
the open amount is moved, and the unit costs are derived.
Source: the lines of `add_trade`, in their order. -/
theorem apply_eq_ok {gain? : Option Gain} (hq : t.quantity.isPositive = true)
    (h : p.apply terms t = .ok (gain?, q)) :
    ∃ fee charged settled moved, terms.feeInQuote t = .ok fee ∧ p.chargeFee t fee = .ok charged ∧
      charged.settle t = .ok settled ∧ settled.move t fee = .ok (gain?, moved) ∧
      q = moved.refreshAverages terms.market.averageCostScale := by
  rw [apply, if_pos hq] at h
  obtain ⟨fee, hfee, h⟩ := bind_eq_ok.mp h
  obtain ⟨charged, hcharged, h⟩ := bind_eq_ok.mp h
  obtain ⟨settled, hsettled, h⟩ := bind_eq_ok.mp h
  obtain ⟨⟨gain?', moved⟩, hmoved, h⟩ := bind_eq_ok.mp h
  obtain ⟨rfl, rfl⟩ := Prod.mk.inj (Except.ok.inj h)
  exact ⟨fee, charged, settled, moved, hfee, hcharged, hsettled, hmoved, rfl⟩

/-! ## What each step changes -/

/-- Charging the fee changes the totals of the fees and nothing else, whether there is a fee or not.
Source: `record_fee`. -/
theorem chargeFee_eq_ok (h : p.chargeFee t fee = .ok q) :
    ∃ fees feeTotal, q = { p with fees, feeTotal } := by
  unfold chargeFee at h
  by_cases hz : t.fee.isZero = true
  · rw [if_pos hz] at h
    obtain ⟨fees, -, h⟩ := bind_eq_ok.mp h
    obtain ⟨feeTotal, -, h⟩ := bind_eq_ok.mp h
    exact ⟨fees, feeTotal, (Except.ok.inj h).symm⟩
  · rw [if_neg hz] at h
    obtain ⟨fees, -, h⟩ := bind_eq_ok.mp h
    obtain ⟨feeTotal, -, h⟩ := bind_eq_ok.mp h
    exact ⟨fees, feeTotal, (Except.ok.inj h).symm⟩

/-- Settling a trade moves the quote currency, counts the trade and keeps its time. -/
theorem settle_eq_ok (h : p.settle t = .ok q) :
    ∃ quote, q = { p with quote, tradeCount := p.tradeCount + 1, updatedAt := some t.time } := by
  obtain ⟨paid, -, h⟩ := bind_eq_ok.mp h
  obtain ⟨quote, -, h⟩ := bind_eq_ok.mp h
  exact ⟨quote, (Except.ok.inj h).symm⟩

/-- Going with the position changes the open amount and the costs and nothing else.
Source: `extend`. -/
theorem increase_eq_ok (h : p.increase t fee = .ok q) :
    ∃ costBasis netCostBasis base, p.base.add t.signedQuantity = .ok base ∧
      q = { p with costBasis, netCostBasis, base } := by
  obtain ⟨notional, -, h⟩ := bind_eq_ok.mp h
  obtain ⟨costBasis, -, h⟩ := bind_eq_ok.mp h
  obtain ⟨netNotional, -, h⟩ := bind_eq_ok.mp h
  obtain ⟨netCostBasis, -, h⟩ := bind_eq_ok.mp h
  obtain ⟨base, hbase, h⟩ := bind_eq_ok.mp h
  exact ⟨costBasis, netCostBasis, base, hbase, (Except.ok.inj h).symm⟩

/-- Going against the position adds what is earned to the profits, whether the position is closed in
part, closed or reversed.
Source: `reduce`. -/
theorem decrease_eq_ok {gain : Gain} (h : p.decrease t fee = .ok (gain, q)) :
    ∃ base costBasis netCostBasis grossProfit netProfit,
      p.base.add t.signedQuantity = .ok base ∧
      p.grossProfit.add gain.gross = .ok grossProfit ∧ p.netProfit.add gain.net = .ok netProfit ∧
        q = { p with base, costBasis, netCostBasis, grossProfit, netProfit } := by
  obtain ⟨opened, -, h⟩ := bind_eq_ok.mp h
  obtain ⟨closingFee, -, h⟩ := bind_eq_ok.mp h
  obtain ⟨openingFee, -, h⟩ := bind_eq_ok.mp h
  obtain ⟨released, -, h⟩ := bind_eq_ok.mp h
  obtain ⟨proceeds, -, h⟩ := bind_eq_ok.mp h
  obtain ⟨gross, -, h⟩ := bind_eq_ok.mp h
  obtain ⟨netOfCost, -, h⟩ := bind_eq_ok.mp h
  obtain ⟨net, -, h⟩ := bind_eq_ok.mp h
  obtain ⟨costBasis, -, h⟩ := bind_eq_ok.mp h
  obtain ⟨netCostBasis, -, h⟩ := bind_eq_ok.mp h
  obtain ⟨base, hbase, h⟩ := bind_eq_ok.mp h
  -- The costs come from here or from what is opened; the rest is the same.
  split at h
  all_goals
    obtain ⟨costs, -, h⟩ := bind_eq_ok.mp h
    obtain ⟨grossProfit, hgross, h⟩ := bind_eq_ok.mp h
    obtain ⟨netProfit, hnet, h⟩ := bind_eq_ok.mp h
    obtain ⟨rfl, rfl⟩ := Prod.mk.inj (Except.ok.inj h)
    exact ⟨base, costs.1, costs.2, grossProfit, netProfit, hbase, hgross, hnet, rfl⟩

/-- The profits of `q` are those of `p` with the gain, if there is one. -/
def Earns (p : Position) (gain? : Option Gain) (q : Position) : Prop :=
  match gain? with
  | none => q.grossProfit = p.grossProfit ∧ q.netProfit = p.netProfit
  | some gain =>
    p.grossProfit.add gain.gross = .ok q.grossProfit ∧ p.netProfit.add gain.net = .ok q.netProfit

/-- What moving the open amount by a trade can be: the position is extended, and nothing is earned,
or the trade goes against it. -/
inductive Moves (p : Position) (t : Trade) (fee : Decimal) : Option Gain → Position → Prop
  | extended {q : Position} (side : p.extendedBy t = true) (increase : p.increase t fee = .ok q) :
      Moves p t fee none q
  | against {gain : Gain} {q : Position} (side : ¬p.extendedBy t = true)
      (decrease : p.decrease t fee = .ok (gain, q)) : Moves p t fee (some gain) q

/-- Which of the two ways a trade has moved the open amount, and what it came to there. -/
theorem moves_of_move {gain? : Option Gain} (h : p.move t fee = .ok (gain?, q)) :
    p.Moves t fee gain? q := by
  unfold move at h
  split at h
  next hextends =>
    obtain ⟨_, hincrease, h⟩ := bind_eq_ok.mp h
    obtain ⟨rfl, rfl⟩ := Prod.mk.inj (Except.ok.inj h)
    exact .extended hextends hincrease
  next hagainst =>
    obtain ⟨⟨_, _⟩, hdecrease, h⟩ := bind_eq_ok.mp h
    obtain ⟨rfl, rfl⟩ := Prod.mk.inj (Except.ok.inj h)
    exact .against hagainst hdecrease

/-- In either way the quantity of the trade is added to what is open, and the gain to the
profits. -/
theorem move_eq_ok {gain? : Option Gain} (h : p.move t fee = .ok (gain?, q)) :
    q.tradeCount = p.tradeCount ∧ p.base.add t.signedQuantity = .ok q.base ∧
      p.Earns gain? q := by
  cases moves_of_move h with
  | extended _ hincrease =>
      obtain ⟨costBasis, netCostBasis, base, hbase, rfl⟩ := increase_eq_ok hincrease
      exact ⟨rfl, hbase, rfl, rfl⟩
  | against _ hdecrease =>
      obtain ⟨base, costBasis, netCostBasis, grossProfit, netProfit, hbase, hgross, hnet, rfl⟩ :=
        decrease_eq_ok hdecrease
      exact ⟨rfl, hbase, hgross, hnet⟩

/-- Moving the open amount leaves the time and the fees alone, in either way. -/
theorem unmoved_of_move {gain? : Option Gain} (h : p.move t fee = .ok (gain?, q)) :
    q.updatedAt = p.updatedAt ∧ q.fees = p.fees ∧ q.feeTotal = p.feeTotal := by
  cases moves_of_move h with
  | extended _ hincrease =>
      obtain ⟨_, _, _, -, rfl⟩ := increase_eq_ok hincrease
      exact ⟨rfl, rfl, rfl⟩
  | against _ hdecrease =>
      obtain ⟨_, _, _, _, _, -, -, -, rfl⟩ := decrease_eq_ok hdecrease
      exact ⟨rfl, rfl, rfl⟩

/-- Deriving the unit costs changes the costs and the unit costs and nothing else.
Source: `refresh_average_costs`. -/
theorem refreshAverages_eq (p : Position) (scale : Nat) :
    ∃ costBasis netCostBasis averageCost netAverageCost,
      p.refreshAverages scale =
        { p with costBasis, netCostBasis, averageCost, netAverageCost } := by
  unfold refreshAverages
  split
  · exact ⟨_, _, _, _, rfl⟩
  · exact ⟨_, _, _, _, rfl⟩

/-- There are no unit costs where nothing is open, so the costs are cleared. -/
theorem refreshAverages_of_isZero (h : p.base.isZero = true) (scale : Nat) :
    p.refreshAverages scale =
      { p with
        costBasis := .zero, netCostBasis := .zero, averageCost := .zero
        netAverageCost := .zero } := by
  have habs : p.base.abs.isZero = true := by
    rw [Decimal.isZero_iff, Decimal.toRat_abs, (Decimal.isZero_iff _).mp h, abs_zero]
  unfold refreshAverages
  rw [Decimal.div?_of_isZero habs]

/-- Deriving the unit costs once more changes nothing, also where they have been cleared the first
time. -/
theorem refreshAverages_refreshAverages (p : Position) (scale : Nat) :
    (p.refreshAverages scale).refreshAverages scale = p.refreshAverages scale := by
  generalize hr : p.refreshAverages scale = r
  unfold refreshAverages at hr
  split at hr
  next cost netCost hcost hnetCost =>
    subst hr
    rw [refreshAverages]
    simp only [hcost, hnetCost]
  next =>
    subst hr
    by_cases habs : p.base.abs.isZero = true
    · rw [refreshAverages]
      simp only [Decimal.div?_of_isZero habs]
    · -- Costs that have been cleared have unit costs, and these are zero.
      rw [refreshAverages]
      simp only [Decimal.zero_div? habs, Decimal.roundTo_zero]

/-- What a trade of a positive quantity does to a position in any run. -/
structure Effect (p : Position) (t : Trade) (gain? : Option Gain) (q : Position) : Prop where
  tradeCount : q.tradeCount = p.tradeCount + 1
  base : p.base.add t.signedQuantity = .ok q.base
  earns : p.Earns gain? q
  /-- Where nothing is open the costs are cleared. -/
  cleared : q.base.isZero = true → q.costBasis = .zero ∧ q.netCostBasis = .zero ∧
    q.averageCost = .zero ∧ q.netAverageCost = .zero

/-- **A trade of a positive quantity is counted once, its quantity is added to what is open, and its
gain to the profits.** -/
theorem effect_of_apply {gain? : Option Gain} (hq : t.quantity.isPositive = true)
    (h : p.apply terms t = .ok (gain?, q)) : p.Effect t gain? q := by
  obtain ⟨fee, charged, settled, moved, -, hcharged, hsettled, hmoved, rfl⟩ := apply_eq_ok hq h
  obtain ⟨fees, feeTotal, rfl⟩ := chargeFee_eq_ok hcharged
  obtain ⟨quote, rfl⟩ := settle_eq_ok hsettled
  obtain ⟨hcount, hbase, hearns⟩ := move_eq_ok hmoved
  obtain ⟨costBasis, netCostBasis, averageCost, netAverageCost, hrefresh⟩ :=
    moved.refreshAverages_eq terms.market.averageCostScale
  constructor
  · rw [hrefresh]
    exact hcount
  · rw [hrefresh]
    exact hbase
  · rw [hrefresh]
    cases gain? <;> exact hearns
  · intro hflat
    have hflat : moved.base.isZero = true := by rwa [hrefresh] at hflat
    rw [refreshAverages_of_isZero hflat]
    exact ⟨rfl, rfl, rfl, rfl⟩

/-- A trade of a positive quantity leaves its time, and unit costs that are derived from the
costs. -/
theorem refreshed_of_apply {gain? : Option Gain} (hq : t.quantity.isPositive = true)
    (h : p.apply terms t = .ok (gain?, q)) :
    q.updatedAt = some t.time ∧ q.refreshAverages terms.market.averageCostScale = q := by
  obtain ⟨fee, charged, settled, moved, -, -, hsettled, hmoved, rfl⟩ := apply_eq_ok hq h
  refine ⟨?_, moved.refreshAverages_refreshAverages _⟩
  obtain ⟨_, _, _, _, hrefresh⟩ := moved.refreshAverages_eq terms.market.averageCostScale
  obtain ⟨quote, rfl⟩ := settle_eq_ok hsettled
  rw [hrefresh]
  exact (unmoved_of_move hmoved).1

/-- A trade of a positive quantity is counted once, whether it opens, closes or reverses the
position. -/
theorem tradeCount_apply {gain? : Option Gain} (hq : t.quantity.isPositive = true)
    (h : p.apply terms t = .ok (gain?, q)) : q.tradeCount = p.tradeCount + 1 :=
  (effect_of_apply hq h).tradeCount

/-- What a trade has earned is added to the profits.  This is so for every trade, also for one
without a positive quantity, which earns nothing. -/
theorem earns_of_apply {gain? : Option Gain} (h : p.apply terms t = .ok (gain?, q)) :
    p.Earns gain? q := by
  by_cases hq : t.quantity.isPositive = true
  · exact (effect_of_apply hq h).earns
  · rw [apply, if_neg hq] at h
    obtain ⟨rfl, rfl⟩ := Prod.mk.inj (Except.ok.inj h)
    exact ⟨rfl, rfl⟩

/-! ## Runs -/

/-- A run begins with its first trade. -/
theorem afterAll_cons (p : Position) (t : Trade) (ts : List Trade) :
    p.afterAll terms (t :: ts) = p.after terms t >>= fun q => q.afterAll terms ts :=
  List.foldlM_cons

/-- A run through two lists is one through the first and then one through the second. -/
theorem afterAll_append (p : Position) (ts us : List Trade) :
    p.afterAll terms (ts ++ us) = p.afterAll terms ts >>= fun q => q.afterAll terms us :=
  List.foldlM_append

/-- One more trade at the end of a run. -/
theorem afterAll_concat {ts : List Trade} {r : Position} (h : p.afterAll terms ts = .ok q)
    (hafter : q.after terms t = .ok r) : p.afterAll terms (ts ++ [t]) = .ok r := by
  rw [afterAll_append, h, ok_bind, afterAll_cons, hafter]
  rfl

/-- One more trade at the end of a run, with what it has earned. -/
theorem afterAll_append_singleton {gain? : Option Gain} {ts : List Trade} {r : Position}
    (h : p.afterAll terms ts = .ok q) (happly : q.apply terms t = .ok (gain?, r)) :
    p.afterAll terms (ts ++ [t]) = .ok r :=
  afterAll_concat h (by rw [after, happly]; rfl)

/-- A run that comes to its end passes through every trade: it comes to the trade, takes it, and
goes on from there. -/
theorem exists_after_of_getElem? {ts : List Trade} {i : Nat} (h : p.afterAll terms ts = .ok q)
    (ht : ts[i]? = some t) :
    ∃ before behind, p.afterAll terms (ts.take i) = .ok before ∧
      before.after terms t = .ok behind ∧ p.afterAll terms (ts.take (i + 1)) = .ok behind := by
  have htake : ts.take (i + 1) = ts.take i ++ [t] := by rw [List.take_add_one, ht]; rfl
  rw [← List.take_append_drop (i + 1) ts, afterAll_append] at h
  obtain ⟨behind, hbehind, -⟩ := bind_eq_ok.mp h
  rw [htake, afterAll_append] at hbehind
  obtain ⟨before, hbefore, hafter⟩ := bind_eq_ok.mp hbehind
  refine ⟨before, behind, hbefore, ?_, ?_⟩
  · rw [afterAll_cons] at hafter
    obtain ⟨_, hafter, hnil⟩ := bind_eq_ok.mp hafter
    rwa [Except.ok.inj hnil] at hafter
  · rw [htake, afterAll_append, hbefore]
    exact hafter

/-- The averages at the end of a run belong to the costs there, if this is so at its start.  The
induction is on the trades; one without a positive quantity leaves the position as it is. -/
theorem refreshed_of_afterAll (ts : List Trade) : ∀ {p : Position},
    p.refreshAverages terms.market.averageCostScale = p → p.afterAll terms ts = .ok q →
      q.refreshAverages terms.market.averageCostScale = q := by
  induction ts with
  | nil =>
      intro p hp h
      obtain rfl := Except.ok.inj h
      exact hp
  | cons t ts ih =>
      intro p hp h
      rw [afterAll_cons] at h
      obtain ⟨r, hr, h⟩ := bind_eq_ok.mp h
      refine ih ?_ h
      by_cases hq : t.quantity.isPositive = true
      · obtain ⟨⟨gain?, _⟩, happly, rfl⟩ := map_eq_ok.mp hr
        exact (refreshed_of_apply hq happly).2
      · rw [after, apply, if_neg hq] at hr
        obtain rfl := Except.ok.inj hr
        exact hp

/-- So the averages of a position belong to its costs after every run from the flat position. -/
theorem refreshed_of_afterAll_flat {ts : List Trade} (h : flat.afterAll terms ts = .ok q) :
    q.refreshAverages terms.market.averageCostScale = q :=
  refreshed_of_afterAll ts (refreshAverages_of_isZero rfl _) h

end Position

end CostBasis
