import CostBasis.Proofs.Position.Ideal
import CostBasis.Proofs.Position.SafeRun

/-!
# How far a position is from the exact account

In the safe envelope a position rounds shares and nothing else.  A share is taken in proportion, so
a partial close carries over no more than the error that the cost had, and adds less than one unit
of the sixteenth place.  A full close releases the whole cost, whatever it is, and so all of the
error with it; a reversal does the same, and starts with the error of the fee that it divides.  What
the cost is off by has gone into the profit with the opposite effect, since profit is conserved.  So
the profits are off by as much as the costs, and the error hangs on the partial closes since the
position was last flat or reversed, not on the length of the history.

Main statements: `Near.step` for one trade, `bounded_deviation` for runs.
-/

namespace CostBasis

open Decimal Position

/-- A position and an exact account that have come apart by the rounding of shares only. -/
structure Near (a : Ideal) (p : Position) : Prop where
  base : p.base.toRat = a.base
  quote : p.quote.toRat = a.quote
  feeTotal : p.feeTotal.toRat = a.feeTotal
  cost : |p.costBasis.toRat - a.cost| ≤ (a.partialCloses + 1) / 10 ^ 16
  netCost : |p.netCostBasis.toRat - a.netCost| ≤ (a.partialCloses + 1) / 10 ^ 16
  /-- What the cost is off by is missing in the profit, or the other way round. -/
  gross : p.grossProfit.toRat - a.gross = p.sign * (p.costBasis.toRat - a.cost)
  net : p.netProfit.toRat - a.net = p.sign * (p.netCostBasis.toRat - a.netCost)
  /-- Where nothing is open nothing has a cost. -/
  cleared : a.base = 0 → a.cost = 0 ∧ a.netCost = 0

/-- Before any trade nothing has come apart. -/
theorem near_flat : Near .flat .flat := by
  constructor <;> simp [Ideal.flat, Position.flat]

/-- A share of a cost that is off leaves a rest that is off by that and one unit at most.  If the
share is the whole nothing is left to be off. -/
theorem abs_rest_sub_le {amount part whole d : Decimal} {exact : ℚ} {n : ℕ}
    (hshare : IsShare amount part whole d) (hamount : OnGrid basisScale amount.toRat)
    (hpart : 0 ≤ part.toRat) (hle : part.toRat ≤ whole.toRat) (hpos : 0 < whole.toRat)
    (h : |amount.toRat - exact| ≤ (n + 1) / 10 ^ 16) :
    |amount.toRat - d.toRat - (exact - exact * (part.toRat / whole.toRat))| ≤
      ((if part.toRat < whole.toRat then n + 1 else 0 : ℕ) + 1) / 10 ^ 16 := by
  split
  case isTrue hlt =>
    have hratio : 0 ≤ part.toRat / whole.toRat := div_nonneg hpart hpos.le
    have hratio' : part.toRat / whole.toRat ≤ 1 := (div_le_one hpos).mpr hle
    have hsplit : amount.toRat - d.toRat - (exact - exact * (part.toRat / whole.toRat)) =
        (amount.toRat - exact) * (1 - part.toRat / whole.toRat) -
          (d.toRat - fraction amount part whole) := by
      rw [fraction]
      ring
    have hcarried : |(amount.toRat - exact) * (1 - part.toRat / whole.toRat)| ≤
        (n + 1) / 10 ^ 16 := by
      rw [abs_mul, abs_of_nonneg (sub_nonneg.mpr hratio')]
      exact (mul_le_of_le_one_right (abs_nonneg _) (by linarith)).trans h
    rw [hsplit]
    calc |(amount.toRat - exact) * (1 - part.toRat / whole.toRat) -
            (d.toRat - fraction amount part whole)|
        ≤ (n + 1) / 10 ^ 16 + 1 / 10 ^ 16 :=
          (abs_sub _ _).trans (add_le_add hcarried hshare.near.le)
      _ = ((n + 1 : ℕ) + 1) / 10 ^ 16 := by
          push_cast
          ring
  case isFalse hnot =>
    have hwhole : part.toRat = whole.toRat := le_antisymm hle (not_lt.mp hnot)
    rw [hshare.eq_of_whole hamount hwhole hpos, hwhole, div_self hpos.ne', mul_one, sub_self,
      sub_self, sub_self, abs_zero]
    positivity

/-! ## One trade -/

namespace Near

variable {a : Ideal} {p q : Position} {t : Trade} {terms : Terms} {fee : Decimal}

/-- The account is on the same side of zero as the position. -/
theorem sign_eq (h : Near a p) : a.sign = p.sign := by
  rw [p.sign_eq, Ideal.sign, h.base]

/-- The sign of a position does not matter to an error that is zero where the position is flat. -/
theorem sign_mul_congr {s e : ℚ} (hflat : p.base.toRat = 0 → e = 0)
    (hopen : p.base.toRat ≠ 0 → s = p.sign) : s * e = p.sign * e := by
  by_cases hbase : p.base.toRat = 0
  · rw [hflat hbase, mul_zero, mul_zero]
  · rw [hopen hbase]

/-- What a close leaves of the costs is near what it leaves in the account, with one unit more of
room for the share that was rounded. -/
theorem rests_near (h : Near a p) (hq : 0 < t.quantity.toRat)
    (hw : p.Within ceiling ceiling ceiling) {released : Decimal × Decimal}
    (hopen : p.base.toRat ≠ 0) (amount : t.quantity.toRat ≤ |p.base.toRat|)
    (release : p.release t.quantity = .ok released)
    (cost : q.costBasis.toRat = p.costBasis.toRat - released.1.toRat)
    (netCost : q.netCostBasis.toRat = p.netCostBasis.toRat - released.2.toRat) :
    let n := if t.quantity.toRat < |a.base| then a.partialCloses + 1 else 0
    |q.costBasis.toRat - (a.cost - a.cost * (t.quantity.toRat / |a.base|))| ≤ (n + 1) / 10 ^ 16 ∧
      |q.netCostBasis.toRat - (a.netCost - a.netCost * (t.quantity.toRat / |a.base|))| ≤
        (n + 1) / 10 ^ 16 := by
  obtain ⟨hcost, hnetCost⟩ :=
    isShare_of_release hw.base hopen hw.cost hw.netCost hq.le amount release
  have hwhole : p.base.abs.toRat = |a.base| := by rw [toRat_abs, h.base]
  have hle : t.quantity.toRat ≤ p.base.abs.toRat := by rwa [toRat_abs]
  have hpos : 0 < p.base.abs.toRat := by rwa [toRat_abs, abs_pos]
  have hcostNear := abs_rest_sub_le hcost hw.cost.grid hq.le hle hpos h.cost
  have hnetCostNear := abs_rest_sub_le hnetCost hw.netCost.grid hq.le hle hpos h.netCost
  rw [← cost, hwhole] at hcostNear
  rw [← netCost, hwhole] at hnetCostNear
  exact ⟨hcostNear, hnetCostNear⟩

/-- A close that leaves nothing open leaves nothing of a cost. -/
theorem rest_eq_zero (h : Near a p) (side : t.side.sign = -p.sign) (hopen : a.base ≠ 0)
    (hflat : a.base + t.side.sign * t.quantity.toRat = 0) (exact : ℚ) :
    exact - exact * (t.quantity.toRat / |a.base|) = 0 := by
  have hall : t.quantity.toRat = |a.base| := by
    rw [← h.base] at hflat ⊢
    exact quantity_eq_of_moved_eq_zero side hflat
  rw [hall, div_self (abs_ne_zero.mpr hopen), mul_one, sub_self]

section step

variable (h : Near a p) (hp : Conserves p) (hq : 0 < t.quantity.toRat)
  (hfee : fee.toRat = terms.feeWorth t) (hstep : p.ExactStep t fee q)

include h hp hq hfee hstep

omit hp in
/-- The amounts go along with those of the account, since nothing is rounded in them. -/
theorem amounts_step : q.base.toRat = (a.after terms t).base ∧
    q.quote.toRat = (a.after terms t).quote ∧ q.feeTotal.toRat = (a.after terms t).feeTotal := by
  obtain ⟨hbase, hquote, hfees⟩ := Ideal.after_amounts terms a hq
  rw [hbase, hquote, hfees, hstep.base, hstep.quote, hstep.feeTotal, h.base, h.quote, h.feeTotal,
    hfee]
  exact ⟨rfl, rfl, rfl⟩

/-- A trade in the direction of the position adds the same to both costs, so they are as far off as
before. -/
theorem step_increased (side : p.base.toRat = 0 ∨ t.side.sign = p.sign)
    (cost : q.costBasis.toRat = p.costBasis.toRat + t.price.toRat * t.quantity.toRat)
    (netCost : q.netCostBasis.toRat =
      p.netCostBasis.toRat + t.price.toRat * t.quantity.toRat + t.side.sign * fee.toRat)
    (gross : q.grossProfit = p.grossProfit) (net : q.netProfit = p.netProfit) :
    Near (a.after terms t) q := by
  have hside : a.base = 0 ∨ t.side.sign = a.sign := by rwa [← h.base, h.sign_eq]
  -- The errors stay, and where nothing was open there were none.
  have herror : q.costBasis.toRat - (a.cost + t.notional) = p.costBasis.toRat - a.cost := by
    rw [cost, Trade.notional]
    ring
  have hnetError : q.netCostBasis.toRat - (a.netCost + (t.notional + t.side.sign * fee.toRat)) =
      p.netCostBasis.toRat - a.netCost := by
    rw [netCost, Trade.notional]
    ring
  have hsign : p.base.toRat ≠ 0 → q.sign = p.sign := fun hopen =>
    (hstep.sign_of_increased hq side).trans (side.resolve_left hopen)
  have hcleared : p.base.toRat = 0 →
      p.costBasis.toRat - a.cost = 0 ∧ p.netCostBasis.toRat - a.netCost = 0 := by
    intro hflat
    obtain ⟨hc, hn⟩ := h.cleared (h.base ▸ hflat)
    rw [(hp.cleared hflat).1, (hp.cleared hflat).2.1, hc, hn, toRat_zero, sub_zero]
    exact ⟨rfl, rfl⟩
  obtain ⟨hbase, hquote, hfees⟩ := h.amounts_step hq hfee hstep
  refine ⟨hbase, hquote, hfees, ?_, ?_, ?_, ?_, ?_⟩ <;>
    rw [Ideal.after_of_increased hq hside, ← hfee]
  · show |q.costBasis.toRat - (a.cost + t.notional)| ≤ (a.partialCloses + 1) / 10 ^ 16
    rw [herror]
    exact h.cost
  · show |q.netCostBasis.toRat - (a.netCost + (t.notional + t.side.sign * fee.toRat))| ≤
      (a.partialCloses + 1) / 10 ^ 16
    rw [hnetError]
    exact h.netCost
  · show q.grossProfit.toRat - a.gross = q.sign * (q.costBasis.toRat - (a.cost + t.notional))
    rw [herror, gross, h.gross, sign_mul_congr (fun hflat => (hcleared hflat).1) hsign]
  · show q.netProfit.toRat - a.net =
      q.sign * (q.netCostBasis.toRat - (a.netCost + (t.notional + t.side.sign * fee.toRat)))
    rw [hnetError, net, h.net, sign_mul_congr (fun hflat => (hcleared hflat).2) hsign]
  · show a.base + t.side.sign * t.quantity.toRat = 0 → _
    rw [← h.base]
    exact fun hflat => absurd hflat (moved_ne_zero_of_extends hq side)

omit hp in
/-- A trade that closes a part of the position, or all of it, takes shares of both costs.  What it
carries over of an old error goes down with the cost; the new error is less than a unit. -/
theorem step_reduced (hw : p.Within ceiling ceiling ceiling) {released : Decimal × Decimal}
    (hopen : p.base.toRat ≠ 0) (side : t.side.sign = -p.sign)
    (amount : t.quantity.toRat ≤ |p.base.toRat|) (release : p.release t.quantity = .ok released)
    (cost : q.costBasis.toRat = p.costBasis.toRat - released.1.toRat)
    (netCost : q.netCostBasis.toRat = p.netCostBasis.toRat - released.2.toRat)
    (gross : q.grossProfit.toRat = p.grossProfit.toRat +
      p.sign * (t.price.toRat * t.quantity.toRat - released.1.toRat))
    (net : q.netProfit.toRat = p.netProfit.toRat +
      p.sign * (t.price.toRat * t.quantity.toRat - released.2.toRat) - fee.toRat) :
    Near (a.after terms t) q := by
  have hopen' : a.base ≠ 0 := by rwa [← h.base]
  have hside : t.side.sign = -a.sign := by rwa [h.sign_eq]
  have hle : t.quantity.toRat ≤ |a.base| := by rwa [← h.base]
  obtain ⟨hcost, hnetCost⟩ := h.rests_near hq hw hopen amount release cost netCost
  have hbase : q.base.toRat = a.base + t.side.sign * t.quantity.toRat := by rw [hstep.base, h.base]
  have hsign : q.base.toRat ≠ 0 → p.sign = q.sign := fun hleft =>
    (hstep.sign_of_reduced side amount hleft).symm
  obtain ⟨hamount, hquote, hfees⟩ := h.amounts_step hq hfee hstep
  refine ⟨hamount, hquote, hfees, ?_, ?_, ?_, ?_, ?_⟩ <;>
    rw [Ideal.after_of_decreased hq hopen' hside,
      Ideal.decrease_of_le (a := a.settle t (terms.feeWorth t)) hq hle, ← hfee]
  · exact hcost
  · exact hnetCost
  · show q.grossProfit.toRat - (a.gross +
        a.sign * (t.notional - a.cost * (t.quantity.toRat / |a.base|))) =
      q.sign * (q.costBasis.toRat - (a.cost - a.cost * (t.quantity.toRat / |a.base|)))
    rw [← sign_mul_congr (fun hflat => ?_) hsign, gross, cost, h.sign_eq, Trade.notional]
    · linear_combination h.gross
    · rw [(hstep.cleared hflat).1, h.rest_eq_zero side hopen' (hbase ▸ hflat), toRat_zero, sub_zero]
  · show q.netProfit.toRat - (a.net + a.sign *
        (t.notional - a.netCost * (t.quantity.toRat / |a.base|)) - fee.toRat) =
      q.sign * (q.netCostBasis.toRat - (a.netCost - a.netCost * (t.quantity.toRat / |a.base|)))
    rw [← sign_mul_congr (fun hflat => ?_) hsign, net, netCost, h.sign_eq, Trade.notional]
    · linear_combination h.net
    · rw [(hstep.cleared hflat).2.1, h.rest_eq_zero side hopen' (hbase ▸ hflat), toRat_zero,
        sub_zero]
  · exact fun hflat => ⟨h.rest_eq_zero side hopen' hflat _, h.rest_eq_zero side hopen' hflat _⟩

omit hp in
/-- A trade that reverses the position releases both costs, and all that they are off by.  The new
net cost is off by what the share of the fee is off by. -/
theorem step_reversed (ht : InEnvelope terms [t]) {closingFee : Decimal}
    (hopen : p.base.toRat ≠ 0) (side : t.side.sign = -p.sign)
    (amount : |p.base.toRat| < t.quantity.toRat)
    (hshare : share fee p.base.abs t.quantity = .ok closingFee)
    (cost : q.costBasis.toRat = t.price.toRat * (t.quantity.toRat - |p.base.toRat|))
    (netCost : q.netCostBasis.toRat = t.price.toRat * (t.quantity.toRat - |p.base.toRat|) -
      p.sign * (fee.toRat - closingFee.toRat))
    (gross : q.grossProfit.toRat = p.grossProfit.toRat +
      p.sign * (t.price.toRat * |p.base.toRat| - p.costBasis.toRat))
    (net : q.netProfit.toRat = p.netProfit.toRat +
      p.sign * (t.price.toRat * |p.base.toRat| - p.netCostBasis.toRat) - closingFee.toRat) :
    Near (a.after terms t) q := by
  have hopen' : a.base ≠ 0 := by rwa [← h.base]
  have hside : t.side.sign = -a.sign := by rwa [h.sign_eq]
  have hlt : |a.base| < t.quantity.toRat := by rwa [← h.base]
  have hsign : q.sign = -p.sign := hstep.sign_of_reversed side amount
  obtain ⟨-, -, -, hworth, hquantity, -⟩ := ht.amounts
  have hspec := isShare_of_reversed (hfee ▸ hworth) hquantity amount hshare
  have hnear : |closingFee.toRat - fee.toRat * (|a.base| / t.quantity.toRat)| ≤ 1 / 10 ^ 16 := by
    have hnear := hspec.near.le
    rwa [fraction, toRat_abs, h.base, mul_div_assoc] at hnear
  rw [h.base] at cost netCost gross net
  -- The net cost is off by the share of the fee alone, and the gain takes up the rest.
  have hnetError : q.netCostBasis.toRat - (t.price.toRat * (t.quantity.toRat - |a.base|) -
      a.sign * (fee.toRat - fee.toRat * (|a.base| / t.quantity.toRat))) =
        p.sign * (closingFee.toRat - fee.toRat * (|a.base| / t.quantity.toRat)) := by
    rw [netCost, h.sign_eq]
    ring
  obtain ⟨hbase, hquote, hfees⟩ := h.amounts_step hq hfee hstep
  refine ⟨hbase, hquote, hfees, ?_, ?_, ?_, ?_, ?_⟩ <;>
    rw [Ideal.after_of_decreased hq hopen' hside,
      Ideal.decrease_of_lt (a := a.settle t (terms.feeWorth t)) hopen' hlt, ← hfee]
  · show |q.costBasis.toRat - t.price.toRat * (t.quantity.toRat - |a.base|)| ≤
      ((0 : ℕ) + 1) / 10 ^ 16
    rw [cost, sub_self, abs_zero]
    positivity
  · show |q.netCostBasis.toRat - (t.price.toRat * (t.quantity.toRat - |a.base|) -
      a.sign * (fee.toRat - fee.toRat * (|a.base| / t.quantity.toRat)))| ≤ ((0 : ℕ) + 1) / 10 ^ 16
    rw [hnetError, abs_mul, p.abs_sign, one_mul, Nat.cast_zero, zero_add]
    exact hnear
  · show q.grossProfit.toRat - (a.gross + a.sign * (t.price.toRat * |a.base| - a.cost)) =
      q.sign * (q.costBasis.toRat - t.price.toRat * (t.quantity.toRat - |a.base|))
    rw [gross, cost, h.sign_eq]
    linear_combination h.gross
  · show q.netProfit.toRat - (a.net + a.sign * (t.price.toRat * |a.base| - a.netCost) -
        fee.toRat * (|a.base| / t.quantity.toRat)) =
      q.sign * (q.netCostBasis.toRat - (t.price.toRat * (t.quantity.toRat - |a.base|) -
        a.sign * (fee.toRat - fee.toRat * (|a.base| / t.quantity.toRat))))
    rw [hnetError, net, hsign, h.sign_eq]
    linear_combination
      h.net + (closingFee.toRat - fee.toRat * (|a.base| / t.quantity.toRat)) * p.sign_mul_sign
  · show a.base + t.side.sign * t.quantity.toRat = 0 → _
    rw [← h.base]
    exact fun hflat => absurd hflat (moved_ne_zero_of_lt side amount)

end step

/-- One trade leaves a position near the account, whichever of the three things it does: it
increases the position, reduces it, or reverses it. -/
theorem step (h : Near a p) (hp : Conserves p) (hw : p.Within ceiling ceiling ceiling)
    (ht : InEnvelope terms [t]) (hfee : fee.toRat = terms.feeWorth t)
    (hstep : p.ExactStep t fee q) : Near (a.after terms t) q := by
  have hq := (ht.plain t (List.mem_singleton_self t)).quantity_pos
  cases hstep.costs with
  | increased side cost netCost gross net =>
      exact h.step_increased hp hq hfee hstep side cost netCost gross net
  | reduced released hopen side amount hrelease cost netCost gross net =>
      exact h.step_reduced hq hfee hstep hw hopen side amount hrelease cost netCost gross net
  | reversed closingFee hopen side amount hshare cost netCost gross net =>
      exact h.step_reversed hq hfee hstep ht hopen side amount hshare cost netCost gross net

end Near

/-! ## Runs -/

/-- A run in the envelope stays near the account.  The induction carries the bounds of the position
along, which the shares need. -/
theorem near_of_envelope {terms : Terms} (ts : List Trade) : InEnvelope terms ts →
    ∃ p, flat.afterAll terms ts = .ok p ∧ Bounded terms ts p ∧
      Near (Ideal.flat.afterAll terms ts) p := by
  induction ts using List.reverseRecOn with
  | nil => exact fun _ => ⟨flat, rfl, within_flat, near_flat⟩
  | append_singleton ts t ih =>
      intro h
      obtain ⟨hts, ht⟩ := h.of_append
      obtain ⟨p, hall, hp, hnear⟩ := ih hts
      obtain ⟨-, fee, q, -, hfee, hafter, hstep, hq⟩ := exists_step_of_bounded h hp
      refine ⟨q, afterAll_concat hall hafter, hq, ?_⟩
      rw [Ideal.afterAll_append_singleton]
      exact hnear.step hp.conserves (Within.mono hp hts.turnover hts.volume hts.feeVolume) ht hfee
        hstep

/-- **Bounded deviation.**  After every trade of a run in the envelope the amounts and the fees are
those of the exact account, and no cost and no profit is further off than one unit of the sixteenth
place, and one for every partial close since the account was last flat or reversed.  Where nothing
is open the profits are exact.
Source: specification, section A3, which keeps the open cost as totals that are not rounded. -/
theorem bounded_deviation {terms : Terms} {ts us : List Trade} (h : InEnvelope terms ts)
    (hus : us <+: ts) :
    ∃ p, flat.afterAll terms us = .ok p ∧
      let a := Ideal.flat.afterAll terms us
      (p.base.toRat = a.base ∧ p.quote.toRat = a.quote ∧ p.feeTotal.toRat = a.feeTotal) ∧
        |p.costBasis.toRat - a.cost| ≤ (a.partialCloses + 1) / 10 ^ 16 ∧
        |p.netCostBasis.toRat - a.netCost| ≤ (a.partialCloses + 1) / 10 ^ 16 ∧
        |p.grossProfit.toRat - a.gross| ≤ (a.partialCloses + 1) / 10 ^ 16 ∧
        |p.netProfit.toRat - a.net| ≤ (a.partialCloses + 1) / 10 ^ 16 ∧
        (a.base = 0 → p.grossProfit.toRat = a.gross ∧ p.netProfit.toRat = a.net) := by
  obtain ⟨vs, rfl⟩ := hus
  obtain ⟨p, hall, hp, hnear⟩ := near_of_envelope us h.of_append.1
  refine ⟨p, hall, ⟨hnear.base, hnear.quote, hnear.feeTotal⟩, hnear.cost, hnear.netCost, ?_, ?_, ?_⟩
  · rw [hnear.gross, abs_mul, p.abs_sign, one_mul]
    exact hnear.cost
  · rw [hnear.net, abs_mul, p.abs_sign, one_mul]
    exact hnear.netCost
  · intro hflat
    obtain ⟨hcost, hnetCost⟩ := hnear.cleared hflat
    obtain ⟨hcost', hnetCost', -⟩ := hp.conserves.cleared (hnear.base.trans hflat)
    have hgross := hnear.gross
    have hnet := hnear.net
    rw [hcost, hcost', toRat_zero, sub_zero, mul_zero] at hgross
    rw [hnetCost, hnetCost', toRat_zero, sub_zero, mul_zero] at hnet
    exact ⟨sub_eq_zero.mp hgross, sub_eq_zero.mp hnet⟩

/-- After one partial close the cost of the sample is off, and the bound is two units.  So the
statement is about runs in which something is rounded. -/
theorem bounded_deviation_sampleHistory :
    InEnvelope sampleTerms sampleHistory ∧ sampleHistory.take 3 <+: sampleHistory ∧
      (Ideal.flat.afterAll sampleTerms (sampleHistory.take 3)).partialCloses = 1 ∧
      ∃ p, flat.afterAll sampleTerms (sampleHistory.take 3) = .ok p ∧
        p.costBasis.toRat ≠ (Ideal.flat.afterAll sampleTerms (sampleHistory.take 3)).cost ∧
        |p.costBasis.toRat - (Ideal.flat.afterAll sampleTerms (sampleHistory.take 3)).cost| ≤
          (1 + 1) / 10 ^ 16 := by
  have henvelope : InEnvelope sampleTerms sampleHistory := by decide +kernel
  have hprefix : sampleHistory.take 3 <+: sampleHistory := List.take_prefix 3 sampleHistory
  have hcount : (Ideal.flat.afterAll sampleTerms (sampleHistory.take 3)).partialCloses = 1 := by
    decide +kernel
  have hoff : Yields (flat.afterAll sampleTerms (sampleHistory.take 3)) fun p =>
      p.costBasis.toRat ≠ (Ideal.flat.afterAll sampleTerms (sampleHistory.take 3)).cost := by
    decide +kernel
  obtain ⟨p, hall, hne⟩ := hoff
  obtain ⟨p', hall', -, hcost, -⟩ := bounded_deviation henvelope hprefix
  obtain rfl : p' = p := Except.ok.inj (hall'.symm.trans hall)
  rw [hcount, Nat.cast_one] at hcost
  exact ⟨henvelope, hprefix, hcount, p', hall, hne, hcost⟩

end CostBasis
