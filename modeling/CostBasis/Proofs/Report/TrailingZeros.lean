import CostBasis.Proofs.Replay.TrailingZeros
import CostBasis.Report

/-!
# Trailing zeros in a report

Trades that are given with other trailing zeros lead to the same report: every figure in it is the
same number.  Its text is then the same to the last character, since a decimal is written without
trailing zeros; and so are the warnings.

Main statements: `ReportRequest.calculate_same`, `Report.Same.toText`.
-/

namespace CostBasis

/-- Two reports that differ in trailing zeros at most. -/
structure Report.Same (r s : Report) : Prop where
  symbol : r.symbol = s.symbol
  feeCurrency : r.feeCurrency = s.feeCurrency
  window : r.window = s.window
  currentPrice : r.currentPrice.Same s.currentPrice
  tradeCount : r.tradeCount = s.tradeCount
  checkpointCount : r.checkpointCount = s.checkpointCount
  buyVolume : r.buyVolume.Same s.buyVolume
  sellVolume : r.sellVolume.Same s.sellVolume
  grossProfit : r.grossProfit.Same s.grossProfit
  netProfit : r.netProfit.Same s.netProfit
  feeTotal : r.feeTotal.Same s.feeTotal
  averageCost : r.averageCost.Same s.averageCost
  stock : r.stock.Same s.stock
  unrealizedProfit : r.unrealizedProfit.Same s.unrealizedProfit
  fees : r.fees.Same s.fees

/-! ## The text -/

/-- The same totals list the same texts for the same currencies, since a decimal is written without
trailing zeros. -/
theorem FeeTotals.Same.toList {m n : FeeTotals} (h : m.Same n) :
    m.toList.map (fun entry => (entry.1, entry.2.toText)) =
      n.toList.map fun entry => (entry.1, entry.2.toText) := by
  have hreduced : m.map (fun _ d => d.reduce) = n.map fun _ d => d.reduce := by
    refine Std.ExtTreeMap.ext_getElem? fun currency => ?_
    rw [Std.ExtTreeMap.getElem?_map, Std.ExtTreeMap.getElem?_map]
    have hcurrency : m[currency]?.map Decimal.toRat = n[currency]?.map Decimal.toRat := h currency
    revert hcurrency
    cases m[currency]? <;> cases n[currency]? <;> simp
    exact Decimal.reduce_eq_iff.mpr
  have hlist (m : FeeTotals) : m.toList.map (fun entry => (entry.1, entry.2.toText)) =
      (m.map fun _ d => d.reduce).toList.map fun entry => (entry.1, entry.2.toText) := by
    rw [Std.ExtTreeMap.toList_map, List.map_map]
    refine List.map_congr_left fun entry _ => ?_
    exact congrArg (entry.1, ·) (Decimal.Same.toText (Decimal.toRat_reduce _).symm)
  rw [hlist m, hlist n, hreduced]

/-- **The same report has the same text**, down to the last character, since each decimal in it is
written without trailing zeros. -/
theorem Report.Same.toText {r s : Report} (h : r.Same s) : r.toText = s.toText := by
  have hempty : r.fees.isEmpty = s.fees.isEmpty := by
    have hlist := congrArg List.isEmpty h.fees.toList
    rwa [List.isEmpty_map, List.isEmpty_map, Std.ExtTreeMap.isEmpty_toList,
      Std.ExtTreeMap.isEmpty_toList] at hlist
  have hfees : r.fees.toList.map (fun entry => "    " ++ entry.1 ++ ": " ++ entry.2.toText) =
      s.fees.toList.map fun entry => "    " ++ entry.1 ++ ": " ++ entry.2.toText := by
    have hlist := congrArg (List.map fun entry => "    " ++ entry.1 ++ ": " ++ entry.2)
      h.fees.toList
    rwa [List.map_map, List.map_map] at hlist
  unfold Report.toText toLines
  simp only [h.symbol, h.feeCurrency, h.window, h.currentPrice.toText, h.tradeCount,
    h.checkpointCount, h.buyVolume.toText, h.sellVolume.toText, h.grossProfit.toText,
    h.netProfit.toText, h.feeTotal.toText, h.averageCost.toText, h.stock.toText,
    h.unrealizedProfit.toText, hempty]
  exact congrArg (fun lines => "\n".intercalate (_ ++ lines)) hfees

namespace ReportRequest

variable {q : ReportRequest} {ts us : List Trade}

/-! ## The calculation -/

/-- Replays that are the same are summed up in the same report, or both cannot be, because the stock
cannot be valued. -/
theorem summarize_same (q : ReportRequest) {r s : Replay} (h : r.Same s) :
    Agree Report.Same (q.summarize r) (q.summarize s) := by
  have hsize : r.trades.size = s.trades.size := by simpa using h.trades.length_eq
  refine (Position.unrealizedProfit_same h.position q.currentPrice).bind fun profit profit' hp => ?_
  exact .ok {
    symbol := rfl
    feeCurrency := rfl
    window := rfl
    currentPrice := rfl
    tradeCount := hsize
    checkpointCount := congrArg List.length h.checkpoints
    buyVolume := h.buyVolume
    sellVolume := h.sellVolume
    grossProfit := h.position.grossProfit
    netProfit := h.position.netProfit
    feeTotal := h.position.feeTotal
    averageCost := h.position.averageCost
    stock := h.position.base
    unrealizedProfit := hp
    fees := h.position.fees }

/-- **The same trades in the window lead to the same report**, to the same error or to the same
fault. -/
theorem calculate_same (h : List.Forall₂ Trade.Same (q.scope ts) (q.scope us)) :
    Agree (Agree Report.Same) (q.calculate ts) (q.calculate us) := by
  unfold calculate
  cases q.window.inverted? with
  | some bounds => exact .ok (.error _)
  | none =>
    cases hobjection : Replay.objection? q.terms.market.symbol none (q.scope ts) with
    | some e =>
      have hobjection' : Replay.objection? q.terms.market.symbol none (q.scope us) = some e := by
        rw [← hobjection, Replay.objection?_same _ h]
      simp only [Replay.append_of_objection (r := .start) hobjection,
        Replay.append_of_objection (r := .start) hobjection']
      exact .ok (.error _)
    | none =>
      -- Neither of them stops on the way, as position and sum stay in step.
      have hinStep : Replay.start.InStep := rfl
      have happend := (Replay.append_same q.terms (.refl Replay.start) h).and_left
        fun answer hanswer => (hinStep.append hobjection hanswer).1
      refine happend.bind fun x y hxy => ?_
      obtain ⟨answer, r⟩ := x
      obtain ⟨answer', s⟩ := y
      obtain ⟨⟨found, rfl⟩, hanswer, hstate⟩ := hxy
      cases answer' with
      | error reason => cases hanswer
      | ok found' =>
        refine (summarize_same q hstate).bind fun report report' hreport => ?_
        exact .ok (.ok hreport)

/-! ## The warnings -/

/-- A trade that is given with other trailing zeros is worth the same warning.  The warning names
its key and the currency of its fee. -/
theorem warning?_same (terms : Terms) {t u : Trade} (h : t.Same u) :
    terms.warning? t = terms.warning? u := by
  have hvaluation : terms.feeValuation t = .unpriced ↔ terms.feeValuation u = .unpriced := by
    unfold Terms.feeValuation
    rw [h.fee.isZero, h.feeCurrency]
    split_ifs <;> simp
  rw [Terms.warning?, Terms.warning?, h.key, h.fee.toText, h.feeCurrency]
  simp only [hvaluation]

/-- **The same trades in the window lead to the same warnings.**  As many trades are begun of both
lists, and they are warned of one by one. -/
theorem warnings_same (h : List.Forall₂ Trade.Same (q.scope ts) (q.scope us)) :
    q.warnings ts = q.warnings us := by
  unfold warnings
  rw [Replay.objection?_same _ h]
  split_ifs
  · rfl
  · rfl
  · have hbegun := Replay.begun_same q.terms h (.refl .start)
    generalize Replay.start.begun q.terms (q.scope ts) = vs,
      Replay.start.begun q.terms (q.scope us) = ws at hbegun ⊢
    induction hbegun with
    | nil => rfl
    | cons ht _ ih => rw [List.filterMap_cons, List.filterMap_cons, warning?_same _ ht, ih]

end ReportRequest

end CostBasis
