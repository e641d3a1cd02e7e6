import CostBasis.Proofs.History.SameSet
import CostBasis.Proofs.Replay.Agreement
import CostBasis.Proofs.Report.TrailingZeros

/-!
# A report and its window

A report is about the trades of its window, and all that it does with a list of trades begins by
leaving out the others and by putting those of the window in order.  Whatever is wrong with a trade
outside the window is therefore never noticed.  The order in which the list has the trades of the
window makes no difference either, since those that the order of time does not tell apart are the
same trades.

Main statement: `report_sees_window`.
-/

namespace CostBasis

/-- Trades that are the same have the same time, number and symbol. -/
theorem Trade.Same.stamp {t u : Trade} (h : t.Same u) : t.stamp = u.stamp := by
  rw [Trade.stamp, Trade.stamp, h.time, h.id, h.symbol]

namespace ReportRequest

variable {q : ReportRequest} {ts us vs : List Trade} {R : Trade → Trade → Prop}

/-- The trades of the window, in the order of the list. -/
def inWindow (q : ReportRequest) (ts : List Trade) : List Trade :=
  ts.filter fun t =>
    (∀ start ∈ q.window.start, start ≤ t.time) ∧ ∀ stop ∈ q.window.stop, t.time ≤ stop

/-- Trades outside the window are left out before anything else happens.
Source: the first lines of `calculate`. -/
theorem scope_eq (q : ReportRequest) (ts : List Trade) :
    q.scope ts = Trade.sortByTime (q.inWindow ts) := by
  have hfilter : ts.filter (fun t => q.window.contains t.time) = q.inWindow ts := by
    refine List.filter_congr fun t _ => ?_
    rw [Bool.eq_iff_iff, Window.contains_iff, decide_eq_true_eq]
  rw [scope, hfilter]

/-- What a report is about are the trades of the window, each as often as the list has it. -/
theorem scope_perm (q : ReportRequest) (ts : List Trade) : (q.scope ts).Perm (q.inWindow ts) := by
  rw [scope_eq]
  exact Trade.sortByTime_perm _

/-- **The scope of a report is determined by the trades of the window**, in whatever order the lists
have them, and up to what `R` does not tell apart. -/
theorem forall₂_scope [IsTrans Trade R] (hstamp : ∀ t u, R t u → t.stamp = u.stamp)
    (hperm : (q.inWindow ts).Perm vs) (hvs : List.Forall₂ R vs (q.inWindow us))
    (hapart : ∀ t ∈ q.inWindow ts, ∀ t' ∈ q.inWindow ts, t.stamp = t'.stamp → R t t') :
    List.Forall₂ R (q.scope ts) (q.scope us) := by
  have hstamps : vs.map Trade.stamp = (q.inWindow us).map Trade.stamp := by
    rw [← List.forall₂_eq_eq_eq, List.forall₂_map_left_iff, List.forall₂_map_right_iff]
    exact hvs.imp hstamp
  rw [scope_eq, scope_eq]
  refine Trade.forall₂_sortByTime ?_ ((SameTrades.of_perm hperm hvs hapart).across hstamp)
  rw [← hstamps]
  exact hperm.map _

end ReportRequest

/-- **A report sees its window only, and that in any order.**  For two lists that have the same
trades in the window, where no two different ones share time, number and symbol, the calculation
comes to the same: to the same report, the same error or the same fault.  What else the lists have
is of no account, of whatever symbol and with whatever quantities, prices and fees.

Trades that differ in trailing zeros are the same number for number.  If they are not held to be
different, the errors and the faults are still the same, and so are the figures of the report as
numbers.
Source: `calculate`. -/
theorem report_sees_window (q : ReportRequest) (ts us : List Trade) :
    ((q.inWindow ts).Perm (q.inWindow us) →
      (∀ t ∈ q.inWindow ts, ∀ t' ∈ q.inWindow ts, t.stamp = t'.stamp → t = t') →
        q.calculate ts = q.calculate us) ∧
    ∀ vs, (q.inWindow ts).Perm vs → List.Forall₂ Trade.Same vs (q.inWindow us) →
      (∀ t ∈ q.inWindow ts, ∀ t' ∈ q.inWindow ts, t.stamp = t'.stamp → t.Same t') →
        Agree (Agree Report.Same) (q.calculate ts) (q.calculate us) := by
  constructor
  · intro hperm hapart
    have hscope : List.Forall₂ (· = ·) (q.scope ts) (q.scope us) :=
      ReportRequest.forall₂_scope (fun _ _ h => congrArg Trade.stamp h) hperm
        (List.forall₂_refl _) hapart
    rw [List.forall₂_eq_eq_eq] at hscope
    rw [ReportRequest.calculate, ReportRequest.calculate, hscope]
  · intro vs hperm hvs hapart
    exact ReportRequest.calculate_same
      (ReportRequest.forall₂_scope (fun _ _ h => h.stamp) hperm hvs hapart)

/-! ### A sample window -/

/-- A report about the first four seconds of the sample market, at a price of 98. -/
def sampleWindowRequest : ReportRequest :=
  ⟨sampleTerms, "BNB", ⟨some ⟨1000⟩, some ⟨4000⟩⟩, .ofInt64 98⟩

/-- The window leaves out the last trade of the sample history, and puts the others in order. -/
theorem scope_sampleWindowRequest :
    sampleWindowRequest.scope sampleHistory.reverse = sampleHistory.take 4 :=
  Trade.sortByTime_eq_of_perm (by decide +kernel) (by decide +kernel) (by decide +kernel)

/-- The trades of the window in another order.  After it comes a trade without a quantity, which has
a negative price and a negative fee, and before it one of another symbol. -/
def sampleDisorder : List Trade := [
  sampleTrade 5 .sell (-97) 0 (-1),
  sampleTrade 4 .sell 99 3 1,
  sampleTrade 2 .buy 101 2 1,
  { sampleTrade 6 .buy 1 1 0 with symbol := "ETHUSDT", time := ⟨999⟩ },
  sampleTrade 1 .buy 100 1 1,
  sampleTrade 3 .sell 103 1 1]

/-- The sample history from the last trade to the first, beside the same trades in another order
with bad ones around them, and with zeros behind the point of a price. -/
theorem report_sees_window_sampleHistory :
    sampleWindowRequest.calculate sampleHistory.reverse =
        sampleWindowRequest.calculate sampleDisorder ∧
      Agree (Agree Report.Same) (sampleWindowRequest.calculate sampleHistory.reverse)
        (sampleWindowRequest.calculate (samplePadded :: sampleDisorder.take 5)) ∧
      Yields (sampleWindowRequest.calculate sampleDisorder) fun answer =>
        ∃ report, answer = .ok report ∧ report.tradeCount = 4 := by
  have hperm : (sampleWindowRequest.inWindow sampleHistory.reverse).Perm
      (sampleWindowRequest.inWindow sampleDisorder) := by decide +kernel
  have hapart : ∀ t ∈ sampleWindowRequest.inWindow sampleHistory.reverse,
      ∀ t' ∈ sampleWindowRequest.inWindow sampleHistory.reverse, t.stamp = t'.stamp → t = t' := by
    decide +kernel
  have hvs : (sampleWindowRequest.inWindow sampleHistory.reverse).Perm
      (sampleTrade 3 .sell 103 1 1 :: (sampleWindowRequest.inWindow sampleDisorder).take 3) := by
    decide +kernel
  have hpadded : (sampleTrade 3 .sell 103 1 1).Same samplePadded :=
    { Trade.Same.refl (sampleTrade 3 .sell 103 1 1) with price := by decide +kernel }
  have hus : sampleWindowRequest.inWindow (samplePadded :: sampleDisorder.take 5) =
      samplePadded :: (sampleWindowRequest.inWindow sampleDisorder).take 3 := by decide +kernel
  have hrun : Yields (Replay.start.append sampleTerms (sampleHistory.take 4)) fun taken =>
      taken.1 = .ok [] ∧ Yields (sampleWindowRequest.summarize taken.2) fun report =>
        report.tradeCount = 4 := by decide +kernel
  have hequal := (report_sees_window _ sampleHistory.reverse sampleDisorder).1 hperm hapart
  have hagree := (report_sees_window _ sampleHistory.reverse
    (samplePadded :: sampleDisorder.take 5)).2 _ hvs
      (hus ▸ .cons hpadded (List.forall₂_same.mpr fun t _ => .refl t))
      fun t ht t' ht' hstamp => hapart t ht t' ht' hstamp ▸ .refl t
  refine ⟨hequal, hagree, ?_⟩
  obtain ⟨⟨_, r⟩, hr, rfl, report, hreport, hcount⟩ := hrun
  rw [← hequal, ReportRequest.calculate_of_append rfl (scope_sampleWindowRequest.symm ▸ hr),
    hreport]
  exact ⟨_, rfl, report, rfl, hcount⟩

end CostBasis
