import CostBasis.CommandLine
import CostBasis.Proofs.Reconciler.Recovery
import CostBasis.Proofs.Reconciler.TrailingZeros
import CostBasis.Proofs.Report.Window

/-!
# What is made of an answer

A reconciler that recovers, and the command, see of a history nothing but its answer to a query.
So where two histories have the same trades they do the same: the reconciler comes to the same state
and announces the same, and the command gives out the same report, or ends with the same error.

If trades that differ in trailing zeros are held to be the same, then this is so up to trailing
zeros.  Of the two formats of a report only JSON shows them, where a number is written by way of
binary floating point.

Main statement: `answers_determined`.
-/

namespace CostBasis

variable {ts us : List Trade}

/-! ## Recoveries -/

namespace Reconciler

/-- A recovery sees of a source that answers only what the query selects of its trades. -/
theorem recoverFrom_of_trades {source : TradeSource} (h : source.trades.run = .ok (.ok ts))
    (r : Reconciler) (isKnown : UInt64 → Bool) (symbol : String) (start : Instant) :
    r.recoverFrom isKnown source symbol start =
      r.recover isKnown (.ok ((TradeQuery.since start).select symbol ts)) :=
  recoverFrom_of_answer (TradeSource.answer_since_eq_ok.mpr ⟨ts, h, rfl⟩) r

/-- The same answer is recovered from in the same way, up to trailing zeros. -/
theorem recover_same (h : List.Forall₂ Trade.Same ts us) (r : Reconciler)
    (isKnown : UInt64 → Bool) :
    Journal.Same (Both (· = ·) Reconciler.Same) (r.recover isKnown (.ok ts))
      (r.recover isKnown (.ok us)) := by
  refine (deliverAll_same isKnown .recovered h (.refl r)).bind fun x y hxy => ?_
  exact Journal.same_pure ⟨congrArg Except.ok hxy.1, hxy.2⟩

end Reconciler

/-! ## The command -/

namespace CommandLine

/-- What the command asks of the export. -/
def exportQuery (c : Config) : TradeQuery := ⟨⟨c.since, none⟩, none, none⟩

/-- The command sees of an export only the answer to its query: the bytes, their layout and the
order of the rows play no part beyond it. -/
theorem answer_of_trades {bytes : List UInt8} (h : (Csv.parseTrades bytes).run = .ok (.ok ts))
    (c : Config) :
    answer c (.ok bytes) = report c ((exportQuery c).select c.symbol ts) := by
  have hvalidate : (exportQuery c).validate = .ok () := by
    unfold TradeQuery.validate exportQuery Window.inverted?
    cases c.since <;> rfl
  have hquery : (Csv.queryTrades c.path (.ok bytes) c.symbol (exportQuery c)).run =
      .ok (.ok ((exportQuery c).select c.symbol ts)) := by
    unfold Csv.queryTrades
    rw [hvalidate]
    show ((Csv.parseTrades bytes) >>= fun ts => pure ((exportQuery c).select c.symbol ts)).run = _
    rw [ExceptT.run_bind, h]
    rfl
  unfold exportQuery at hquery ⊢
  simp only [answer, hquery]

/-- What the command gets is all of it in the window of the report, and in order.  So the report
leaves nothing out and moves nothing. -/
theorem scope_select (c : Config) (ts : List Trade) :
    (request c).scope ((exportQuery c).select c.symbol ts) =
      (exportQuery c).select c.symbol ts := by
  show Trade.sortByTime (((exportQuery c).selectAll c.symbol ts).filter _) = _
  rw [List.filter_eq_self.mpr fun t ht => ?_]
  · exact Trade.sortByTime_eq_of_perm (.refl _) (TradeQuery.nodup_keys_selectAll ts)
      (TradeQuery.pairwise_selectAll ts)
  · obtain ⟨-, -, haccepts⟩ := TradeQuery.mem_of_mem_selectAll ht
    exact (Bool.and_eq_true_iff.mp haccepts).1

/-- Two outcomes are the same, or both are the same report as JSON but for trailing zeros.  JSON
writes a number by way of binary floating point, and so it shows how many zeros a decimal has. -/
inductive SameOutcome (format : ReportFormat) : Outcome → Outcome → Prop
  | equal (outcome : Outcome) : SameOutcome format outcome outcome
  | json (isJson : format = .json) (log : String) {r s : Report} (reports : r.Same s) :
      SameOutcome format ⟨0, log ++ present .json r, ""⟩ ⟨0, log ++ present .json s, ""⟩

/-- The same answer is reported in the same way: with the same lines of the log, and with the same
error or the same report. -/
theorem report_same (c : Config) (h : List.Forall₂ Trade.Same ((request c).scope ts)
    ((request c).scope us)) (hlength : ts.length = us.length) :
    SameOutcome c.format (report c ts) (report c us) := by
  have hloaded : loadedEntry c ts = loadedEntry c us := by rw [loadedEntry, loadedEntry, hlength]
  have hcalculate := ReportRequest.calculate_same h
  simp only [report, hloaded, ReportRequest.warnings_same h]
  generalize logText (loadedEntry c us :: (request c).warnings us) = log
  generalize (request c).calculate ts = x, (request c).calculate us = y at hcalculate ⊢
  cases hcalculate with
  | error fault => exact .equal _
  | ok hanswer =>
    cases hanswer with
    | error e => exact .equal _
    | @ok r s hreport =>
      cases hformat : c.format with
      | json => exact .json rfl log hreport
      | text =>
        simp only [present, hreport.toText]
        exact .equal _

end CommandLine

/-- **Only the trades of a history count.**  Let two histories have the same trades, in whatever
order and however often, where no two different ones share time, number and symbol.  Then they give
the same answer to every query.  A reconciler that recovers from either of them comes to the same
state and announces the same.  And the command, given an export of either, gives out the same report
or ends with the same error.

Trades that differ in trailing zeros are the same number for number.  If they are not held to be
different, then all this is so up to trailing zeros.
Source: `select_trades`, `recover` and `main`. -/
theorem answers_determined (ts us : List Trade) :
    (SameTrades (· = ·) ts us →
      (∀ (q : TradeQuery) (symbol : String), q.select symbol ts = q.select symbol us) ∧
      (∀ source source' : TradeSource,
        source.trades.run = .ok (.ok ts) → source'.trades.run = .ok (.ok us) →
          ∀ (r : Reconciler) (isKnown : UInt64 → Bool) (symbol : String) (start : Instant),
            r.recoverFrom isKnown source symbol start =
              r.recoverFrom isKnown source' symbol start) ∧
      ∀ bytes bytes' : List UInt8,
        (Csv.parseTrades bytes).run = .ok (.ok ts) → (Csv.parseTrades bytes').run = .ok (.ok us) →
          ∀ (c : Config) (path : String),
            CommandLine.answer c (.ok bytes) = CommandLine.answer { c with path } (.ok bytes')) ∧
    (SameTrades Trade.Same ts us →
      (∀ (q : TradeQuery) (symbol : String),
        List.Forall₂ Trade.Same (q.select symbol ts) (q.select symbol us)) ∧
      (∀ source source' : TradeSource,
        source.trades.run = .ok (.ok ts) → source'.trades.run = .ok (.ok us) →
          ∀ (r : Reconciler) (isKnown : UInt64 → Bool) (symbol : String) (start : Instant),
            Journal.Same (Both (· = ·) Reconciler.Same) (r.recoverFrom isKnown source symbol start)
              (r.recoverFrom isKnown source' symbol start)) ∧
      ∀ bytes bytes' : List UInt8,
        (Csv.parseTrades bytes).run = .ok (.ok ts) → (Csv.parseTrades bytes').run = .ok (.ok us) →
          ∀ (c : Config) (path : String),
            CommandLine.SameOutcome c.format (CommandLine.answer c (.ok bytes))
              (CommandLine.answer { c with path } (.ok bytes'))) := by
  constructor
  · intro h
    have hselect (q : TradeQuery) (symbol : String) : q.select symbol ts = q.select symbol us := by
      rw [← List.forall₂_eq_eq_eq]
      exact h.forall₂_select (fun _ _ heq => congrArg Trade.stamp heq) q symbol
    refine ⟨hselect, ?_, ?_⟩
    · intro source source' hsource hsource' r isKnown symbol start
      rw [Reconciler.recoverFrom_of_trades hsource, Reconciler.recoverFrom_of_trades hsource',
        hselect]
    · intro bytes bytes' hbytes hbytes' c path
      rw [CommandLine.answer_of_trades hbytes, CommandLine.answer_of_trades hbytes']
      show _ = CommandLine.report c _
      exact congrArg _ (hselect ..)
  · intro h
    have hselect := h.forall₂_select fun _ _ hsame => hsame.stamp
    refine ⟨hselect, ?_, ?_⟩
    · intro source source' hsource hsource' r isKnown symbol start
      rw [Reconciler.recoverFrom_of_trades hsource, Reconciler.recoverFrom_of_trades hsource']
      exact Reconciler.recover_same (hselect ..) r isKnown
    · intro bytes bytes' hbytes hbytes' c path
      rw [CommandLine.answer_of_trades hbytes, CommandLine.answer_of_trades hbytes']
      have hanswers := hselect (CommandLine.exportQuery c) c.symbol
      refine CommandLine.report_same c ?_ hanswers.length_eq
      rw [CommandLine.scope_select]
      exact (CommandLine.scope_select c us).symm ▸ hanswers

/-! ### Sample exports -/

/-- The settings of a report about the sample market, at a price of 98. -/
def sampleConfig : Config where
  symbol := "BTCUSDT"
  path := "trades.csv"
  currentPrice := .ofInt64 98
  feeCurrency := "BNB"
  baseCurrency := "BTC"
  quoteCurrency := "USDT"
  pricePrecision := 2
  volumePrecision := 6
  since := none
  format := .text

/-- An export with the given rows. -/
def sampleExport (rows : List String) : List UInt8 :=
  (("id,symbol,order_id,side,price,quantity,fee,fee_currency,time_ms" :: rows).flatMap fun row =>
    (row ++ "\n").toUTF8.toList)

/-- The rows of the sample contents. -/
def sampleRows : List String := [
  "3,BTCUSDT,3,sell,99,3,1,USDT,3000",
  "4,ETHUSDT,4,buy,1,1,0,USDT,4000",
  "1,BTCUSDT,1,buy,100,1,1,USDT,1000",
  "2,BTCUSDT,2,sell,103,1,1,USDT,2000"]

/-- The last of them with two zeros behind the point of the price. -/
def samplePaddedRow : String := "2,BTCUSDT,2,sell,103.00,1,1,USDT,2000"

/-- The trade of this row. -/
def samplePaddedSale : Trade :=
  { sampleTrade 2 .sell 103 1 1 with
    price := samplePadded.price
    quoteQuantity := samplePadded.price }

set_option maxRecDepth 10000 in
/-- A history that is read from a file with its rows in reverse and each of them twice, and one with
zeros behind the point of a price. -/
theorem answers_determined_sampleExports :
    (⟨.always, some 1, some 1⟩ : TradeQuery).select "BTCUSDT"
        (sampleContents.reverse ++ sampleContents) = [sampleTrade 2 .sell 103 1 1] ∧
      sampleReconciler.recoverFrom (fun _ => true) sampleSource "BTCUSDT" ⟨2000⟩ =
        sampleReconciler.recoverFrom (fun _ => true)
          (.file "other.csv" (.ok (sampleExport (sampleRows.reverse ++ sampleRows)))) "BTCUSDT"
          ⟨2000⟩ ∧
      CommandLine.answer sampleConfig (.ok (sampleExport sampleRows)) =
        CommandLine.answer { sampleConfig with path := "other.csv" }
          (.ok (sampleExport (sampleRows.reverse ++ sampleRows))) ∧
      CommandLine.SameOutcome .text
        (CommandLine.answer sampleConfig (.ok (sampleExport sampleRows)))
        (CommandLine.answer { sampleConfig with path := "other.csv" }
          (.ok (sampleExport (samplePaddedRow :: sampleRows)))) := by
  have hrows : (Csv.parseTrades (sampleExport sampleRows)).run = .ok (.ok sampleContents) := by
    decide +kernel
  have hrepeated : (Csv.parseTrades (sampleExport (sampleRows.reverse ++ sampleRows))).run =
      .ok (.ok (sampleContents.reverse ++ sampleContents)) := by decide +kernel
  have hpadded : (Csv.parseTrades (sampleExport (samplePaddedRow :: sampleRows))).run =
      .ok (.ok (samplePaddedSale :: sampleContents)) := by decide +kernel
  have hequal : SameTrades (· = ·) sampleContents (sampleContents.reverse ++ sampleContents) :=
    ⟨by decide +kernel, by decide +kernel, by decide +kernel⟩
  have hsame : SameTrades Trade.Same sampleContents (samplePaddedSale :: sampleContents) :=
    ⟨by decide +kernel, by decide +kernel, by decide +kernel⟩
  have hanswer : (⟨.always, some 1, some 1⟩ : TradeQuery).select "BTCUSDT" sampleContents =
      [sampleTrade 2 .sell 103 1 1] := by
    have hperm : (sampleContents.filter fun t => t.symbol == "BTCUSDT").Perm sampleTape := by
      decide +kernel
    have hall := TradeQuery.selectAll_of_perm (q := ⟨.always, some 1, some 1⟩) hperm
      (by decide +kernel) (by decide +kernel)
    exact (congrArg (List.take 1) hall).trans (by decide +kernel)
  obtain ⟨hselect, hrecover, hreport⟩ := (answers_determined sampleContents _).1 hequal
  obtain ⟨-, -, hreport'⟩ := (answers_determined sampleContents _).2 hsame
  exact ⟨(hselect ..).symm.trans hanswer,
    hrecover sampleSource (.file "other.csv" (.ok _)) rfl hrepeated ..,
    hreport _ _ hrows hrepeated .., hreport' _ _ hrows hpadded sampleConfig "other.csv"⟩

end CostBasis
