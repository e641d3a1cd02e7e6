import CostBasis.Proofs.History.Select
import CostBasis.Proofs.Position.Exact
import CostBasis.Proofs.Reconciler.Step
import CostBasis.Proofs.Replay.Run
import CostBasis.Report

/-!
# Three ways to the same position

A history can be replayed at once, it can come in trade by trade, and a report can be made about it.
Each way looks at the trades in its own manner before it applies them, and keeps its own books.  But
what a replay takes is fit for the reconciler as well, and a report sorts its trades into the one
order that there is.  So all three lead the position through the same trades, and by the same
operations: the positions agree field by field, whatever was rounded.

Main statement: `replay_agrees`.
-/

namespace CostBasis

/-! ## Trades as they come in -/

namespace Reconciler

variable {r : Reconciler} {isKnown : UInt64 → Bool} {origin : Origin} {t : Trade}

/-- Takes trades one after another as they are made, and says of each whether it was applied. -/
def deliverEach (r : Reconciler) (isKnown : UInt64 → Bool) :
    List Trade → Journal (List Bool × Reconciler)
  | [] => return ([], r)
  | t :: ts => do
    let (isNew, r) ← r.deliver isKnown .live t
    let (others, r) ← r.deliverEach isKnown ts
    return (isNew :: others, r)

/-- A trade is booked with the position that it leads to, and announced. -/
theorem apply_of_ok {gain? : Option Gain} {position : Position}
    (h : r.position.apply r.terms t = .ok (gain?, position)) :
    r.apply origin t = ⟨announcements origin t gain?, .ok (r.book t position)⟩ := by
  unfold apply
  rw [h]
  cases gain? <;> rfl

/-- A fit trade is sound for the reconciler of its symbol: what a replay objects to includes what a
reconciler passes over. -/
theorem isSound_of_fit (h : t.Fit r.symbol) : r.isSound t = true := by
  rw [isSound, h.symbol, h.quantity, Bool.eq_false_of_not_eq_true h.price, beq_self_eq_true]
  rfl

/-- A new fit trade is applied if its order is known, whatever waits in the store. -/
theorem deliver_of_fit (origin : Origin) {gain? : Option Gain} {position : Position}
    (hfresh : ¬r.isApplied t.key = true) (hfit : t.Fit r.symbol)
    (hknown : isKnown t.orderId = true)
    (h : r.position.apply r.terms t = .ok (gain?, position)) :
    ∃ es, r.deliver isKnown origin t = ⟨es, .ok (true, r.book t position)⟩ := by
  rw [deliver_of_known hfresh (isSound_of_fit hfit) hknown, apply_of_ok h, Journal.bind_of_ok rfl,
    Journal.bind_of_ok rfl]
  exact ⟨_, rfl⟩

/-- Fit trades with distinct new keys are all applied, and lead where a run of them leads.  The
induction is on the trades; each of them makes one more key old, and no later trade has it. -/
theorem deliverEach_of_fit {p : Position} (ts : List Trade) : ∀ {r : Reconciler},
    (∀ t ∈ ts, t.Fit r.symbol ∧ ¬r.isApplied t.key = true ∧ isKnown t.orderId = true) →
      (ts.map Trade.key).Nodup → r.position.afterAll r.terms ts = .ok p →
        ∃ es s, r.deliverEach isKnown ts = ⟨es, .ok (ts.map fun _ => true, s)⟩ ∧
          s.position = p := by
  induction ts with
  | nil =>
      intro r _ _ h
      exact ⟨[], r, rfl, Except.ok.inj h⟩
  | cons t ts ih =>
      intro r hall hnodup h
      obtain ⟨⟨hfit, hfresh, hknown⟩, hall⟩ := List.forall_mem_cons.mp hall
      obtain ⟨hnew, hnodup⟩ := List.nodup_cons.mp hnodup
      rw [Position.afterAll_cons] at h
      obtain ⟨position, hafter, h⟩ := bind_eq_ok.mp h
      obtain ⟨⟨gain?, position⟩, happly, rfl⟩ := map_eq_ok.mp hafter
      obtain ⟨first, hfirst⟩ := deliver_of_fit .live hfresh hfit hknown happly
      obtain ⟨rest, s, hrest, hs⟩ := ih (r := r.book t position)
        (fun u hu => ⟨(hall u hu).1, not_isApplied_book hnew hu (hall u hu).2.1, (hall u hu).2.2⟩)
        hnodup h
      have hothers : (r.book t position).deliverEach isKnown ts >>=
          (fun a => pure (true :: a.1, a.2)) =
            ⟨rest, .ok ((t :: ts).map fun _ => true, s)⟩ := by
        rw [hrest, Journal.bind_of_ok rfl]
        simp
      refine ⟨first ++ rest, s, ?_, hs⟩
      exact Journal.bind_eq_ok.mpr ⟨first, (true, r.book t position), rest, hfirst, hothers, rfl⟩

end Reconciler

/-! ## Reports -/

namespace ReportRequest

variable {q : ReportRequest} {ts us : List Trade}

/-- The scope of a request without a window is the whole history in order. -/
theorem scope_of_perm (hwindow : q.window = .always) (hperm : us.Perm ts)
    (hkeys : (ts.map Trade.key).Nodup) (hsorted : ts.Pairwise fun t u => t.notAfter u = true) :
    q.scope us = ts := by
  have hall : us.filter (fun t => q.window.contains t.time) = us :=
    List.filter_eq_self.mpr fun t _ => by rw [hwindow]; rfl
  rw [scope, hall, Trade.sortByTime_eq_of_perm hperm hkeys hsorted]

/-- The report about a scope that a replay takes sums up the replay.
Source: `calculate`, which makes a replay of its own. -/
theorem calculate_of_append {found : List Checkpoint} {r : Replay}
    (hwindow : q.window.inverted? = none)
    (h : Replay.start.append q.terms (q.scope us) = .ok (.ok found, r)) :
    q.calculate us = (q.summarize r).map .ok := by
  unfold calculate
  simp only [hwindow, h, ok_bind]
  cases q.summarize r <;> rfl

end ReportRequest

/-- **A replay, a reconciler and a report agree.**  A replay has taken a history in which no key
comes twice.  Its position is that of the trades one after another.  A new reconciler to which all
orders are known applies each of the trades as it comes, and has this position in the end.  And if
the history is in order, a report about its trades, in any order, has the numbers of this position,
unless the open amount cannot be valued.
Source: `add_trades`, `process_trade_from` and `calculate`. -/
theorem replay_agrees {terms : Terms} {ts : List Trade} {found : List Checkpoint} {r : Replay}
    (h : Replay.start.append terms ts = .ok (.ok found, r)) (hkeys : (ts.map Trade.key).Nodup) :
    Position.flat.afterAll terms ts = .ok r.position ∧
    (∀ isKnown : UInt64 → Bool, (∀ t ∈ ts, isKnown t.orderId = true) →
      ∃ log s, (Reconciler.start terms.market.symbol terms).deliverEach isKnown ts =
        ⟨log, .ok (ts.map fun _ => true, s)⟩ ∧ s.position = r.position) ∧
    ((ts.Pairwise fun t u => t.notAfter u = true) →
      ∀ (q : ReportRequest) (us : List Trade), q.terms = terms → q.window = .always → us.Perm ts →
        q.calculate us =
          (r.position.unrealizedProfit q.currentPrice).map fun unrealizedProfit => .ok
            { symbol := terms.market.symbol
              feeCurrency := q.feeCurrency
              window := .always
              currentPrice := q.currentPrice
              tradeCount := ts.length
              checkpointCount := r.checkpoints.length
              buyVolume := r.buyVolume
              sellVolume := r.sellVolume
              grossProfit := r.position.grossProfit
              netProfit := r.position.netProfit
              feeTotal := r.position.feeTotal
              averageCost := r.position.averageCost
              stock := r.position.base
              unrealizedProfit
              fees := r.position.fees }) := by
  have hr : Replay.Replayed terms ts r := ((Replay.replayed_start terms).append h).1
  have hcount : r.trades.size = ts.length := by rw [← Array.length_toList, hr.trades]
  refine ⟨hr.position, fun isKnown hknown => ?_, fun hsorted q us hterms hwindow hperm => ?_⟩
  · refine Reconciler.deliverEach_of_fit ts (fun t ht => ⟨hr.fit t ht, ?_, hknown t ht⟩) hkeys
      hr.position
    exact Std.ExtTreeSet.not_mem_empty
  · subst hterms
    have hscope := ReportRequest.scope_of_perm hwindow hperm hkeys hsorted
    rw [ReportRequest.calculate_of_append (by rw [hwindow]; rfl) (hscope.symm ▸ h),
      ReportRequest.summarize, hwindow, hcount]
    cases r.position.unrealizedProfit q.currentPrice <;> rfl

/-- A report at a price of 98, whose trades are asked for from the last to the first. -/
def sampleRequest : ReportRequest := ⟨sampleTerms, "BNB", .always, .ofInt64 98⟩

/-- The sample history, taken at once, trade by trade, and in a report that is asked for from the
last trade to the first. -/
theorem replay_agrees_sampleHistory :
    (sampleHistory.map Trade.key).Nodup ∧
    (sampleHistory.Pairwise fun t u => t.notAfter u = true) ∧
    ∃ found r, Replay.start.append sampleTerms sampleHistory = .ok (.ok found, r) ∧
      Position.flat.afterAll sampleTerms sampleHistory = .ok r.position ∧
      (∃ log s, (Reconciler.start "BTCUSDT" sampleTerms).deliverEach (fun _ => true) sampleHistory =
        ⟨log, .ok ([true, true, true, true, true], s)⟩ ∧ s.position = r.position) ∧
      ∃ report, sampleRequest.calculate sampleHistory.reverse = .ok (.ok report) ∧
        report.netProfit = r.position.netProfit ∧ report.checkpointCount = 1 := by
  have hkeys : (sampleHistory.map Trade.key).Nodup := by decide +kernel
  have hsorted : sampleHistory.Pairwise fun t u => t.notAfter u = true := by decide +kernel
  have hrun : Yields (Replay.start.append sampleTerms sampleHistory) fun taken =>
      taken.1 = .ok [⟨4, 5, ⟨5000⟩⟩] ∧ taken.2.checkpoints.length = 1 ∧
        Yields (taken.2.position.unrealizedProfit sampleRequest.currentPrice) fun _ => True := by
    decide +kernel
  obtain ⟨⟨_, r⟩, hr, rfl, hcount, profit, hprofit, -⟩ := hrun
  obtain ⟨hposition, hlive, hreport⟩ := replay_agrees hr hkeys
  have hreport := hreport hsorted sampleRequest sampleHistory.reverse rfl rfl
    (List.reverse_perm sampleHistory)
  rw [hprofit] at hreport
  exact ⟨hkeys, hsorted, _, r, hr, hposition, hlive (fun _ => true) fun _ _ => rfl, _, hreport, rfl,
    hcount⟩

end CostBasis
