import CostBasis.Proofs.Position.ExactStep

/-!
# The totals of a position

The fees and the gains of all trades are added up in totals, which go on when the position is
closed.  Where the additions are not rounded, the totals of a run are the sums of the totals of its
parts.

Main statements: `adds_of_apply` for one trade, `Joins.adds` for two positions that take it.
-/

namespace CostBasis

open Decimal

namespace Position

variable {terms : Terms} {p q : Position} {t : Trade} {fee : Decimal}

/-- The fee and the gain of a trade are added to the totals without rounding. -/
def AddsExactly (terms : Terms) (p : Position) (t : Trade) : Prop :=
  Yields (terms.feeInQuote t) fun fee => p.ChargesExactly t fee ∧
    Yields (p.apply terms t) fun applied => ∀ gain ∈ applied.1,
      ExactSum p.grossProfit gain.gross (fun _ => True) ∧
        ExactSum p.netProfit gain.net fun _ => True

instance (terms : Terms) (p : Position) (t : Trade) : Decidable (p.AddsExactly terms t) := by
  unfold AddsExactly
  infer_instance

/-- The totals of `q` are those of `p` with what a trade adds to them. -/
structure Adds (p : Position) (t : Trade) (fee : Decimal) (gain? : Option Gain) (q : Position) :
    Prop where
  grossProfit :
    q.grossProfit.toRat = p.grossProfit.toRat + gain?.elim 0 fun gain => gain.gross.toRat
  netProfit : q.netProfit.toRat = p.netProfit.toRat + gain?.elim 0 fun gain => gain.net.toRat
  feeTotal : q.feeTotal.toRat = p.feeTotal.toRat + fee.toRat
  fees : ∀ currency, q.fees.amount? currency =
    if t.fee.isZero = false ∧ t.feeCurrency = currency then
      some ((p.fees.amount? currency).getD 0 + t.fee.toRat)
    else p.fees.amount? currency
  tradeCount : q.tradeCount = p.tradeCount + 1

/-- The gain of an exact close is added to the profits without rounding, be it a close in part, in
full, or by a reversal. -/
theorem addsGain_of_decreasesExactly {gain : Gain} (h : p.DecreasesExactly t fee)
    (hdecrease : p.decrease t fee = .ok (gain, q)) :
    ExactSum p.grossProfit gain.gross (fun _ => True) ∧
      ExactSum p.netProfit gain.net fun _ => True := by
  obtain ⟨opened, ⟨-, h⟩, hdecrease⟩ := Yields.of_bind_eq_ok h hdecrease
  obtain ⟨closing, h, hdecrease⟩ := Yields.of_bind_eq_ok h hdecrease
  obtain ⟨opening, ⟨-, h⟩, hdecrease⟩ := Yields.of_bind_eq_ok h hdecrease
  obtain ⟨⟨cost, netCost⟩, ⟨hearns, -⟩, hdecrease⟩ := Yields.of_bind_eq_ok h hdecrease
  obtain ⟨proceeds, ⟨-, hearns⟩, hdecrease⟩ := Yields.of_bind_eq_ok hearns hdecrease
  obtain ⟨gross, ⟨-, hearns⟩, hdecrease⟩ := Yields.of_bind_eq_ok hearns hdecrease
  obtain ⟨netOfCost, ⟨-, hearns⟩, hdecrease⟩ := Yields.of_bind_eq_ok hearns hdecrease
  obtain ⟨net, ⟨-, grossProfit, hgross, vgross, hnet⟩, hdecrease⟩ :=
    Yields.of_bind_eq_ok hearns hdecrease
  obtain ⟨costBasis, -, hdecrease⟩ := bind_eq_ok.mp hdecrease
  obtain ⟨netCostBasis, -, hdecrease⟩ := bind_eq_ok.mp hdecrease
  obtain ⟨base, -, hdecrease⟩ := bind_eq_ok.mp hdecrease
  split at hdecrease
  all_goals
    obtain ⟨costs, -, hdecrease⟩ := bind_eq_ok.mp hdecrease
    obtain ⟨grossProfit', -, hdecrease⟩ := bind_eq_ok.mp hdecrease
    obtain ⟨netProfit', -, hdecrease⟩ := bind_eq_ok.mp hdecrease
    obtain ⟨rfl, -⟩ := Prod.mk.inj (Except.ok.inj hdecrease)
    exact ⟨⟨grossProfit, hgross, vgross, trivial⟩, hnet⟩

/-- An exact trade adds to the totals without rounding.  The converse does not hold: of an exact
trade also the costs are exact. -/
theorem addsExactly_of_appliesExactly (hq : t.quantity.isPositive = true)
    (h : p.AppliesExactly terms t) : p.AddsExactly terms t := by
  obtain ⟨_, _, -, hafter, -⟩ := exactStep_of_appliesExactly hq h
  obtain ⟨⟨gain?, q⟩, happly, rfl⟩ := map_eq_ok.mp hafter
  obtain ⟨fee, hfee, hcharges, -, hmoves⟩ := h hq
  refine ⟨fee, hfee, hcharges, _, happly, fun gain hgain => ?_⟩
  obtain rfl : gain? = some gain := hgain
  obtain ⟨fee', charged, settled, moved, hfee', hcharged, hsettled, hmoved, -⟩ :=
    apply_eq_ok hq happly
  obtain rfl := Except.ok.inj (hfee.symm.trans hfee')
  obtain ⟨fees, feeTotal, rfl⟩ := chargeFee_eq_ok hcharged
  obtain ⟨quote, rfl⟩ := settle_eq_ok hsettled
  cases moves_of_move hmoved with
  | against hagainst hdecrease =>
      have hagainst : ¬p.extendedBy t = true := hagainst
      rw [if_neg hagainst] at hmoves
      -- Settling has changed nothing that a close looks at.
      have hmoves : DecreasesExactly
          { p with fees, feeTotal, quote, tradeCount := p.tradeCount + 1, updatedAt := some t.time }
          t fee := hmoves
      have hadds := addsGain_of_decreasesExactly hmoves hdecrease
      exact hadds

/-- What is added to the totals without rounding is added in numbers: the fee to its totals, and the
gain to the profits. -/
theorem adds_of_apply {gain? : Option Gain} (hq : t.quantity.isPositive = true)
    (hfee : terms.feeInQuote t = .ok fee) (h : p.apply terms t = .ok (gain?, q))
    (hexact : p.AddsExactly terms t) : p.Adds t fee gain? q := by
  obtain ⟨fee', hfee', hcharges, applied, happlied, hgain⟩ := hexact
  obtain rfl := Except.ok.inj (hfee.symm.trans hfee')
  obtain rfl := Except.ok.inj (h.symm.trans happlied)
  have heffect := effect_of_apply hq h
  obtain ⟨_, charged, settled, moved, hfee', hcharged, hsettled, hmoved, rfl⟩ := apply_eq_ok hq h
  obtain rfl := Except.ok.inj (hfee.symm.trans hfee')
  obtain ⟨fees, feeTotal, hcharge, htotal, hfees⟩ := chargeFee_of_exact hcharges
  obtain rfl := Except.ok.inj (hcharge.symm.trans hcharged)
  obtain ⟨quote, rfl⟩ := settle_eq_ok hsettled
  obtain ⟨-, hmovedFees, hmovedTotal⟩ := unmoved_of_move hmoved
  obtain ⟨_, _, _, _, hrefresh⟩ := moved.refreshAverages_eq terms.market.averageCostScale
  have hearns := heffect.earns
  refine ⟨?_, ?_, ?_, ?_, heffect.tradeCount⟩
  · cases gain? with
    | none => simpa using congrArg toRat hearns.1
    | some gain =>
      exact (hgain gain rfl).1.toRat_eq hearns.1
  · cases gain? with
    | none => simpa using congrArg toRat hearns.2
    | some gain =>
      exact (hgain gain rfl).2.toRat_eq hearns.2
  · rw [hrefresh]
    show moved.feeTotal.toRat = _
    rw [hmovedTotal]
    exact htotal
  · intro currency
    rw [hrefresh]
    show moved.fees.amount? currency = _
    rw [hmovedFees]
    exact hfees currency

/-- The totals of `r` are the sums of those of `p` and `q`. -/
structure Joins (p q r : Position) : Prop where
  grossProfit : r.grossProfit.toRat = p.grossProfit.toRat + q.grossProfit.toRat
  netProfit : r.netProfit.toRat = p.netProfit.toRat + q.netProfit.toRat
  feeTotal : r.feeTotal.toRat = p.feeTotal.toRat + q.feeTotal.toRat
  fees : ∀ currency, r.fees.amount? currency =
    Option.merge (· + ·) (p.fees.amount? currency) (q.fees.amount? currency)
  tradeCount : r.tradeCount = p.tradeCount + q.tradeCount

/-- With nothing added, the whole is its one part. -/
theorem joins_flat (p : Position) : Joins p flat p := by
  have hnone : ∀ currency, flat.fees.amount? currency = none := by
    intro currency
    simp [flat, FeeTotals.amount?]
  refine ⟨?_, ?_, ?_, ?_, rfl⟩
  · simp [flat]
  · simp [flat]
  · simp [flat]
  · intro currency
    simp [hnone]

/-- What is added to a part and to the whole leaves the whole the sum of its parts.  The other part
stays as it is. -/
theorem Joins.adds {r q' r' : Position} {gain? : Option Gain} (h : Joins p q r)
    (hq : q.Adds t fee gain? q') (hr : r.Adds t fee gain? r') : Joins p q' r' := by
  constructor
  · rw [hr.grossProfit, hq.grossProfit, h.grossProfit, add_assoc]
  · rw [hr.netProfit, hq.netProfit, h.netProfit, add_assoc]
  · rw [hr.feeTotal, hq.feeTotal, h.feeTotal, add_assoc]
  · intro currency
    rw [hr.fees, hq.fees, h.fees]
    split
    · cases p.fees.amount? currency <;> cases q.fees.amount? currency <;> simp [add_assoc]
    · rfl
  · rw [hr.tradeCount, hq.tradeCount, h.tradeCount, Nat.add_assoc]

end Position

end CostBasis
