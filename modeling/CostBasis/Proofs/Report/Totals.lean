import CostBasis.Proofs.Position.Conservation
import CostBasis.Proofs.Replay.RoundTrip
import CostBasis.Proofs.Report.Window

/-!
# What a report adds up to

The totals of a report are sums over the trades of its window, as long as no sum is rounded.  What
was earned depends on the order of the trades, with all its averages and partial closes, and so does
what the open amount would earn.  But the two together do not: they are what was taken in less what
was paid, and what the open amount is worth at the current price.  For the profit is conserved, and
closing the open amount at the current price would turn all of it into quote currency.

Main statement: `report_adds_up`.
-/

namespace CostBasis

open Decimal

/-! ## Volumes -/

/-- The quantity of all trades of a side. -/
def volumeOn (side : Side) (ts : List Trade) : ℚ :=
  ((ts.filter fun t => t.side = side).map fun t => t.quantity.toRat).sum

/-- A trade adds its quantity to the volume of its side. -/
theorem volumeOn_cons (side : Side) (t : Trade) (ts : List Trade) :
    volumeOn side (t :: ts) =
      (if t.side = side then t.quantity.toRat else 0) + volumeOn side ts := by
  unfold volumeOn
  by_cases h : t.side = side <;> simp [h]

/-- The volume of a side does not depend on the order of the trades. -/
theorem volumeOn_perm {ts us : List Trade} (h : ts.Perm us) (side : Side) :
    volumeOn side ts = volumeOn side us :=
  ((h.filter _).map _).sum_eq

/-- What was bought and not sold is the net quantity. -/
theorem netQuantity_eq_volumeOn (ts : List Trade) :
    netQuantity ts = volumeOn .buy ts - volumeOn .sell ts := by
  induction ts with
  | nil => simp [volumeOn]
  | cons t ts ih =>
      rw [netQuantity_cons, volumeOn_cons, volumeOn_cons, ih, Trade.toRat_signedQuantity]
      cases t.side <;> simp [Side.sign] <;> ring

namespace Replay

variable {terms : Terms} {s : Replay}

/-- Without rounding the volumes grow by the quantities of the two sides.  The induction is on the
trades. -/
theorem volumes_of_enterAll (ts : List Trade) : ∀ {r : Replay} {found : List Checkpoint},
    r.enterAll terms ts = .ok (.ok found, s) → r.AddsAllExactly terms ts →
      s.buyVolume.toRat = r.buyVolume.toRat + volumeOn .buy ts ∧
        s.sellVolume.toRat = r.sellVolume.toRat + volumeOn .sell ts := by
  induction ts with
  | nil =>
      intro r found h _
      obtain ⟨-, rfl⟩ := Prod.mk.inj (Except.ok.inj h)
      simp [volumeOn]
  | cons t ts ih =>
      intro r found h ⟨hadds, entered, hentered, hrest⟩
      obtain ⟨checkpoint, q, rest, henter, hall, -⟩ := enterAll_cons_iff.mp h
      obtain rfl := Except.ok.inj (henter.symm.trans hentered)
      obtain ⟨hbought, hsold⟩ := volumes_of_entered (enter_eq_ok henter) hadds
      obtain ⟨hboughtAll, hsoldAll⟩ := ih hall hrest
      rw [hboughtAll, hsoldAll, hbought, hsold, volumeOn_cons, volumeOn_cons]
      exact ⟨add_assoc .., add_assoc ..⟩

end Replay

/-! ## The value of what is open -/

namespace Position

variable {p : Position} {price profit : Decimal}

/-- What the open amount would earn is found without rounding. -/
def ValuesExactly (p : Position) (price : Decimal) : Prop :=
  ExactProduct price p.base.abs fun value => ExactDifference value p.costBasis fun _ => True

instance (p : Position) (price : Decimal) : Decidable (p.ValuesExactly price) :=
  inferInstanceAs (Decidable
    (ExactProduct price p.base.abs fun value => ExactDifference value p.costBasis fun _ => True))

/-- What the open amount would earn is its worth less its cost, with the sign of a debt turned
round. -/
theorem toRat_unrealizedProfit (hexact : p.ValuesExactly price)
    (h : p.unrealizedProfit price = .ok profit) :
    profit.toRat = price.toRat * p.base.toRat - p.sign * p.costBasis.toRat := by
  obtain ⟨value, hvalue, hworth, difference, hdifference, hearned, -⟩ := hexact
  unfold unrealizedProfit at h
  rw [hvalue, ok_bind, hdifference] at h
  obtain rfl := Except.ok.inj h
  have hsigned : p.sign * |p.base.toRat| = p.base.toRat := by
    rw [p.abs_base, ← mul_assoc, p.sign_mul_sign, one_mul]
  rw [Direction.toRat_signed, hearned, hworth, toRat_abs]
  show p.sign * (price.toRat * |p.base.toRat| - p.costBasis.toRat) = _
  linear_combination price.toRat * hsigned

/-- **What was earned and what the open amount would earn are the quote currency and the worth of
the open amount.** -/
theorem equity_of_conserves (hconserves : Conserves p) (hexact : p.ValuesExactly price)
    (h : p.unrealizedProfit price = .ok profit) :
    p.grossProfit.toRat + profit.toRat = p.quote.toRat + p.base.toRat * price.toRat := by
  rw [toRat_unrealizedProfit hexact h, hconserves.gross]
  ring

end Position

/-! ## Reports -/

namespace ReportRequest

variable {q : ReportRequest} {ts : List Trade}

/-- Nothing in the calculation of a report is rounded that need not be. -/
structure CalculatesExactly (q : ReportRequest) (ts : List Trade) : Prop where
  position : Position.flat.AppliesAllExactly q.terms (q.scope ts)
  volumes : Replay.start.AddsAllExactly q.terms (q.scope ts)
  value : ∀ p, Position.flat.afterAll q.terms (q.scope ts) = .ok p → p.ValuesExactly q.currentPrice

/-- A report sums up a replay of its scope, and of nothing else, and its window is a sensible
one. -/
theorem calculate_eq_ok {report : Report} (h : q.calculate ts = .ok (.ok report)) :
    q.window.inverted? = none ∧ ∃ found r,
      Replay.start.append q.terms (q.scope ts) = .ok (.ok found, r) ∧
        q.summarize r = .ok report := by
  unfold calculate at h
  split at h
  · cases h
  next hwindow =>
    obtain ⟨⟨taken, r⟩, happend, h⟩ := bind_eq_ok.mp h
    cases taken with
    | error reason => cases h
    | ok found =>
      obtain ⟨report', hreport, h⟩ := bind_eq_ok.mp h
      obtain rfl := Except.ok.inj (Except.ok.inj h)
      exact ⟨hwindow, found, r, happend, hreport⟩

end ReportRequest

/-- **A report adds up.**  Where nothing is rounded that need not be, a report counts the trades of
its window, and its volumes, its stock and its fees are the sums over these trades.  What was earned
and what the stock would earn are together what was taken in less what was paid, and the worth of
the stock at the current price.
Source: `calculate` and `unrealized_profit`. -/
theorem report_adds_up {q : ReportRequest} {ts : List Trade} {report : Report}
    (h : q.calculate ts = .ok (.ok report)) (hexact : q.CalculatesExactly ts) :
    report.tradeCount = (q.inWindow ts).length ∧
    report.buyVolume.toRat = volumeOn .buy (q.inWindow ts) ∧
    report.sellVolume.toRat = volumeOn .sell (q.inWindow ts) ∧
    report.stock.toRat = report.buyVolume.toRat - report.sellVolume.toRat ∧
    report.feeTotal.toRat = q.terms.quotedFees (q.inWindow ts) ∧
    (∀ currency, report.fees.amount? currency = feesIn? currency (q.inWindow ts)) ∧
    report.grossProfit.toRat + report.unrealizedProfit.toRat =
      proceeds (q.inWindow ts) - outlay (q.inWindow ts) +
        report.stock.toRat * q.currentPrice.toRat := by
  obtain ⟨-, found, r, happend, hreport⟩ := ReportRequest.calculate_eq_ok h
  obtain ⟨profit, hprofit, hreport⟩ := bind_eq_ok.mp hreport
  obtain rfl := Except.ok.inj hreport
  have hperm := q.scope_perm ts
  obtain ⟨hfit, htaken⟩ := Replay.append_eq_ok happend
  obtain ⟨-, r', henter, rfl⟩ := Replay.append_iff.mp happend
  obtain ⟨hbought, hsold⟩ := Replay.volumes_of_enterAll _ henter hexact.volumes
  obtain ⟨p, hp, htally, hconserves⟩ := Position.afterAll_of_exact _ [] .flat
    (tallies_flat q.terms) conserves_flat hexact.position
  obtain rfl : p = r'.position := Except.ok.inj (hp.symm.trans htaken.position)
  -- All trades of the window have an effect, and their order is of no account.
  have heffective : effective (q.inWindow ts) = q.inWindow ts :=
    List.filter_eq_self.mpr fun t ht => (hfit t (hperm.mem_iff.mpr ht)).quantity
  have htally := htally.perm hperm
  have hbuy : r'.buyVolume.toRat = volumeOn .buy (q.inWindow ts) := by
    rw [hbought, ← volumeOn_perm hperm]
    simp [Replay.start]
  have hsell : r'.sellVolume.toRat = volumeOn .sell (q.inWindow ts) := by
    rw [hsold, ← volumeOn_perm hperm]
    simp [Replay.start]
  refine ⟨?_, hbuy, hsell, ?_, ?_, ?_, ?_⟩
  · show r'.trades.size = _
    rw [← Array.length_toList, htaken.trades, ← hperm.length_eq]
    simp [Replay.start]
  · show r'.position.base.toRat = r'.buyVolume.toRat - r'.sellVolume.toRat
    rw [hbuy, hsell, htally.base, heffective, netQuantity_eq_volumeOn]
  · rw [← heffective]
    exact htally.feeTotal
  · intro currency
    rw [← heffective]
    exact htally.fees currency
  · have hequity := Position.equity_of_conserves hconserves (hexact.value _ hp) hprofit
    rw [htally.quote, heffective] at hequity
    exact hequity

/-- The first four trades of the sample history, which end with a unit owed.  At the current price
this would cost as much as has been earned. -/
theorem report_adds_up_sampleHistory :
    ∃ report, sampleWindowRequest.calculate sampleHistory.reverse = .ok (.ok report) ∧
      sampleWindowRequest.CalculatesExactly sampleHistory.reverse ∧
      report.tradeCount = 4 ∧ report.buyVolume.toRat = 3 ∧ report.sellVolume.toRat = 4 ∧
      report.stock.toRat = -1 ∧ report.feeTotal.toRat = 4 ∧
      report.fees.amount? "USDT" = some 4 ∧
      report.grossProfit.toRat + report.unrealizedProfit.toRat = 0 := by
  have hscope := scope_sampleWindowRequest
  have hrun : Yields (Replay.start.append sampleTerms (sampleHistory.take 4)) fun taken =>
      taken.1 = .ok [] ∧ Yields (sampleWindowRequest.summarize taken.2) fun _ => True := by
    decide +kernel
  have hposition : Yields (Position.flat.afterAll sampleTerms (sampleHistory.take 4)) fun p =>
      p.ValuesExactly sampleWindowRequest.currentPrice := by decide +kernel
  have hexact : Position.flat.AppliesAllExactly sampleTerms (sampleHistory.take 4) ∧
      Replay.start.AddsAllExactly sampleTerms (sampleHistory.take 4) := by decide +kernel
  obtain ⟨⟨_, r⟩, hr, rfl, report, hreport, -⟩ := hrun
  have hcalculate : sampleWindowRequest.calculate sampleHistory.reverse = .ok (.ok report) := by
    rw [ReportRequest.calculate_of_append rfl (hscope.symm ▸ hr), hreport]
    rfl
  have hcalculates : sampleWindowRequest.CalculatesExactly sampleHistory.reverse := by
    refine ⟨hscope.symm ▸ hexact.1, hscope.symm ▸ hexact.2, fun p hp => ?_⟩
    obtain ⟨p', hp', hvalue⟩ := hposition
    rw [hscope] at hp
    exact Except.ok.inj (hp'.symm.trans hp) ▸ hvalue
  obtain ⟨hcount, hbuy, hsell, hstock, hfee, hfees, hequity⟩ :=
    report_adds_up hcalculate hcalculates
  have hbuy := hbuy.trans (show _ = (3 : ℚ) by decide +kernel)
  have hsell := hsell.trans (show _ = (4 : ℚ) by decide +kernel)
  have hstock : report.stock.toRat = -1 := by rw [hstock, hbuy, hsell]; norm_num
  refine ⟨report, hcalculate, hcalculates, hcount.trans (by decide +kernel), hbuy, hsell, hstock,
    hfee.trans (by decide +kernel), (hfees "USDT").trans (by decide +kernel), ?_⟩
  rw [hequity, hstock]
  decide +kernel

end CostBasis
