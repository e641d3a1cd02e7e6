import CostBasis.Proofs.Position.Conservation
import CostBasis.Proofs.Reconciler.Books

/-!
# The schedule is of no account

Two desks that deal on the same terms may see their trades and orders in different orders, at
different times and more or less often, and so apply the trades in different orders, with different
openings, partial closes and reversals on the way.  If they have applied the same trades in the end,
each without rounding a sum, then their positions agree in all that is a sum over the trades.  The
gains along the way may differ; but where nothing is open the profit is what was taken in less what
was paid, and that is such a sum.

Trades are the same if they differ in trailing zeros at most.  A desk applies no key twice, so the
trades of the one can be put side by side with those of the other, and then the sums are compared
over lists that are the same one by one.

Main statement: `schedule_independent`.
-/

namespace CostBasis

open Decimal

namespace Position

/-- The positions have the same sums, and if nothing is open the same profit and no costs. -/
structure Agrees (p q : Position) : Prop where
  base : p.base.toRat = q.base.toRat
  quote : p.quote.toRat = q.quote.toRat
  feeTotal : p.feeTotal.toRat = q.feeTotal.toRat
  fees : ∀ currency, p.fees.amount? currency = q.fees.amount? currency
  tradeCount : p.tradeCount = q.tradeCount
  grossProfit : p.base.toRat = 0 → p.grossProfit.toRat = q.grossProfit.toRat
  netProfit : p.base.toRat = 0 → p.netProfit.toRat = q.netProfit.toRat
  averageCost : p.base.toRat = 0 → p.averageCost = q.averageCost
  netAverageCost : p.base.toRat = 0 → p.netAverageCost = q.netAverageCost
  costBasis : p.base.toRat = 0 → p.costBasis = q.costBasis
  netCostBasis : p.base.toRat = 0 → p.netCostBasis = q.netCostBasis

variable {terms : Terms} {ts us : List Trade} {p q : Position}

/-- The sums and the conserved profit are all that it takes to agree.  Where nothing is open, the
conserved profit is a difference of two sums. -/
theorem agrees_of_tallies (hp : Tallies terms ts p) (hq : Tallies terms ts q)
    (cp : Conserves p) (cq : Conserves q) : p.Agrees q := by
  have hbase : p.base.toRat = q.base.toRat := hp.base.trans hq.base.symm
  have hquote : p.quote.toRat = q.quote.toRat := hp.quote.trans hq.quote.symm
  have hfeeTotal : p.feeTotal.toRat = q.feeTotal.toRat := hp.feeTotal.trans hq.feeTotal.symm
  -- Where nothing is open no cost is left on either side.
  have hcosts : p.base.toRat = 0 →
      p.costBasis = q.costBasis ∧ p.netCostBasis = q.netCostBasis ∧
        p.averageCost = q.averageCost ∧ p.netAverageCost = q.netAverageCost := by
    intro hflat
    obtain ⟨hcost, hnetCost, haverage, hnetAverage⟩ := cp.cleared hflat
    obtain ⟨hcost', hnetCost', haverage', hnetAverage'⟩ := cq.cleared (hbase ▸ hflat)
    exact ⟨hcost.trans hcost'.symm, hnetCost.trans hnetCost'.symm, haverage.trans haverage'.symm,
      hnetAverage.trans hnetAverage'.symm⟩
  have hsign : p.sign = q.sign := by rw [p.sign_eq, q.sign_eq, hbase]
  constructor
  · exact hbase
  · exact hquote
  · exact hfeeTotal
  · intro currency
    rw [hp.fees, hq.fees]
  · rw [hp.tradeCount, hq.tradeCount]
  · intro hflat
    rw [cp.gross, cq.gross, hquote, hsign, (hcosts hflat).1]
  · intro hflat
    rw [cp.net, cq.net, hquote, hsign, hfeeTotal, (hcosts hflat).2.1]
  · exact fun hflat => (hcosts hflat).2.2.1
  · exact fun hflat => (hcosts hflat).2.2.2
  · exact fun hflat => (hcosts hflat).1
  · exact fun hflat => (hcosts hflat).2.1

/-- **Two exact runs over the same trades agree**, in whatever order they take them, and with
whatever trailing zeros. -/
theorem agrees_of_perm {vs : List Trade} (hperm : ts.Perm vs)
    (hsame : List.Forall₂ Trade.Same vs us)
    (hts : Position.flat.AppliesAllExactly terms ts)
    (hus : Position.flat.AppliesAllExactly terms us)
    (hp : Position.flat.afterAll terms ts = .ok p) (hq : Position.flat.afterAll terms us = .ok q) :
    p.Agrees q := by
  obtain ⟨p', hp', tp, cp⟩ :=
    afterAll_of_exact ts [] .flat (tallies_flat terms) conserves_flat hts
  obtain ⟨q', hq', tq, cq⟩ :=
    afterAll_of_exact us [] .flat (tallies_flat terms) conserves_flat hus
  obtain rfl : p' = p := Except.ok.inj (hp'.symm.trans hp)
  obtain rfl : q' = q := Except.ok.inj (hq'.symm.trans hq)
  exact agrees_of_tallies ((tp.perm hperm).same hsame) tq cp cq

end Position

/-! ## The same trades side by side -/

/-- If every trade of a list is the same as one of another list, then those can be put beside it,
one by one. -/
theorem Trade.exists_forall₂_same (us : List Trade) : ∀ {ts : List Trade},
    (∀ u ∈ us, ∃ t ∈ ts, t.Same u) → ∃ vs, List.Forall₂ Trade.Same vs us ∧ vs ⊆ ts := by
  induction us with
  | nil =>
      intro ts _
      exact ⟨[], .nil, List.nil_subset ts⟩
  | cons u us ih =>
      intro ts h
      obtain ⟨⟨t, ht, hsame⟩, hus⟩ := List.forall_mem_cons.mp h
      obtain ⟨vs, hvs, hsubset⟩ := ih hus
      exact ⟨t :: vs, .cons hsame hvs, List.cons_subset.mpr ⟨ht, hsubset⟩⟩

/-- **Lists of the same trades can be put side by side**, if neither of them has a key twice.  What
is put beside the one list has no key twice either, so it is the other list in another order. -/
theorem Trade.exists_perm_same {ts us : List Trade} (hts : (ts.map Trade.key).Nodup)
    (hus : (us.map Trade.key).Nodup) (hleft : ∀ t ∈ ts, ∃ u ∈ us, t.Same u)
    (hright : ∀ u ∈ us, ∃ t ∈ ts, t.Same u) :
    ∃ vs, ts.Perm vs ∧ List.Forall₂ Trade.Same vs us := by
  obtain ⟨vs, hvs, hsubset⟩ := Trade.exists_forall₂_same us hright
  have hkeys : vs.map Trade.key = us.map Trade.key := Trade.Same.map_eq Trade.Same.key hvs
  have hnodup : vs.Nodup := List.Nodup.of_map Trade.key (hkeys ▸ hus)
  -- The keys of the one list are among those of the other, so it is not longer.
  have hlength : ts.length ≤ vs.length := by
    have hall : ts.map Trade.key ⊆ us.map Trade.key := by
      intro key hkey
      obtain ⟨t, ht, rfl⟩ := List.mem_map.mp hkey
      obtain ⟨u, hu, hsame⟩ := hleft t ht
      exact List.mem_map.mpr ⟨u, hu, hsame.key.symm⟩
    have hle := (List.subperm_of_subset hts hall).length_le
    rwa [← hkeys, List.length_map, List.length_map] at hle
  exact ⟨vs, ((List.subperm_of_subset hnodup hsubset).perm_of_length_le hlength).symm, hvs⟩

/-! ## Two runs -/

/-- **Schedule independence.**  Two runs from fresh desks on the same terms that have applied the
same trades, up to trailing zeros, and both of them exactly, have the same amounts, fees and number
of trades; and if nothing is open, the same profits and costs.
Source: order-independence and conservation; specification, section 8. -/
theorem schedule_independent {terms : Terms} {symbol symbol' : String}
    {settings settings' : ServiceSettings} {known known' : KnownOrders}
    {happenings happenings' : List Happening} {c c' : Chronicle}
    (h : (Chronicle.opening (.fresh symbol terms settings known)).run happenings = .ok c)
    (h' : (Chronicle.opening (.fresh symbol' terms settings' known')).run happenings' = .ok c')
    (hleft : ∀ t ∈ appliedIn c.log, ∃ u ∈ appliedIn c'.log, t.Same u)
    (hright : ∀ u ∈ appliedIn c'.log, ∃ t ∈ appliedIn c.log, t.Same u)
    (hexact : Position.flat.AppliesAllExactly terms (appliedIn c.log))
    (hexact' : Position.flat.AppliesAllExactly terms (appliedIn c'.log)) :
    c.reconciler.position.Agrees c'.reconciler.position := by
  obtain ⟨haccounts, -, hterms⟩ := accounts_of_run_fresh h
  obtain ⟨haccounts', -, hterms'⟩ := accounts_of_run_fresh h'
  obtain ⟨vs, hperm, hsame⟩ :=
    Trade.exists_perm_same haccounts.nodup haccounts'.nodup hleft hright
  have hposition := haccounts.position
  have hposition' := haccounts'.position
  rw [hterms] at hposition
  rw [hterms'] at hposition'
  exact Position.agrees_of_perm hperm hsame hexact hexact' hposition hposition'

/-- The sample history as it is made, when all its orders are known. -/
def sampleLive : List Happening :=
  [1, 2, 3, 4, 5].map (fun id => .added (sampleOrder id)) ++ sampleHistory.map .delivered

/-- Some of the orders of the sample market. -/
def sampleOrders (ids : List UInt64) : KnownOrders :=
  (KnownOrders.empty true).addAll (ids.map sampleOrder)

/-- The sample history when the orders of its last three trades become known first.  The third trade
has come with zeros behind its price.  The history brings the first two; their orders become known
in its course, each just before the trade that asks for it. -/
def sampleLate : List Happening :=
  (sampleHistory.set 2 samplePadded).map .delivered ++
    [3, 4, 5].map (fun id => .added (sampleOrder id)) ++
      [.rechecked, .answered (.ok sampleHistory)
        [sampleOrders [1], sampleOrders [1, 2]] fun place => place + 1]

/-- The two desks apply the trades in different orders, and one of them a trade with more zeros
behind its price.  Nothing is open in the end, and the positions agree. -/
theorem schedule_independent_sampleHistory :
    Yields (sampleOpening.run sampleLive) fun c =>
      Yields (sampleOpening.run sampleLate) fun c' =>
        (appliedIn c.log).map Trade.id = [1, 2, 3, 4, 5] ∧
          (appliedIn c'.log).map Trade.id = [3, 4, 5, 1, 2] ∧
            samplePadded ∈ appliedIn c'.log ∧ samplePadded ∉ appliedIn c.log ∧
              c.reconciler.position.Agrees c'.reconciler.position ∧
                c.reconciler.position.base.toRat = 0 := by
  have hruns : Yields (sampleOpening.run sampleLive) fun c =>
      Yields (sampleOpening.run sampleLate) fun c' =>
        ((appliedIn c.log).map Trade.id = [1, 2, 3, 4, 5] ∧
          (appliedIn c'.log).map Trade.id = [3, 4, 5, 1, 2] ∧
            samplePadded ∈ appliedIn c'.log ∧ samplePadded ∉ appliedIn c.log) ∧
        ((∀ t ∈ appliedIn c.log, ∃ u ∈ appliedIn c'.log, t.Same u) ∧
          ∀ u ∈ appliedIn c'.log, ∃ t ∈ appliedIn c.log, t.Same u) ∧
        (Position.flat.AppliesAllExactly sampleTerms (appliedIn c.log) ∧
          Position.flat.AppliesAllExactly sampleTerms (appliedIn c'.log)) ∧
        c.reconciler.position.base.toRat = 0 := by decide +kernel
  obtain ⟨c, hrun, c', hrun', ⟨hids, hids', hpadded, hplain⟩, ⟨hleft, hright⟩, ⟨hexact, hexact'⟩,
    hflat⟩ := hruns
  exact ⟨c, hrun, c', hrun', hids, hids', hpadded, hplain,
    schedule_independent hrun hrun' hleft hright hexact hexact', hflat⟩

end CostBasis
