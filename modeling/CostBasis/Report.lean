import CostBasis.History
import CostBasis.Replay

/-!
# Profit reports

A report sums up the trades of one market within a window of time: what was bought and sold, what
was earned, what was paid in fees, and what the open amount would earn at the current price.
-/

namespace CostBasis

/-- The reasons for which there is no report.
Source: `AccountingError`. -/
inductive ReportError where
  /-- The window ends before it starts. -/
  | invertedWindow (start stop : Instant)
  /-- The trades cannot be accounted for. -/
  | rejected (reason : Rejection)
deriving DecidableEq

/-- The wording of an error. -/
def ReportError.message : ReportError → String
  | .invertedWindow start stop =>
    "invalid time range: start " ++ start.toText ++ " is after end " ++ stop.toText
  | .rejected reason => reason.message

/-- A report.
Source: `ProfitAndLossReport`; specification, section A8. -/
structure Report where
  /-- The symbol that is traded. -/
  symbol : String
  /-- The currency in which the exchange prefers to take its fees. -/
  feeCurrency : String
  /-- The time of the trades. -/
  window : Window
  /-- The price that the open amount is valued at. -/
  currentPrice : Decimal
  /-- The number of trades. -/
  tradeCount : Nat
  /-- The number of times at which nothing was open any more. -/
  checkpointCount : Nat
  /-- The quantity bought. -/
  buyVolume : Decimal
  /-- The quantity sold. -/
  sellVolume : Decimal
  /-- What was earned before fees. -/
  grossProfit : Decimal
  /-- What was earned after fees. -/
  netProfit : Decimal
  /-- The fees in the quote currency. -/
  feeTotal : Decimal
  /-- The cost of one unit of the open amount. -/
  averageCost : Decimal
  /-- The open amount. -/
  stock : Decimal
  /-- What closing the open amount would earn before fees. -/
  unrealizedProfit : Decimal
  /-- The fees, each in its own currency. -/
  fees : FeeTotals
deriving DecidableEq

/-- What a report is to be about.
Source: `ProfitAndLossCalculator` without its trades, which are given with the call. -/
structure ReportRequest where
  /-- The terms on which trades are accounted for. -/
  terms : Terms
  /-- The currency in which the exchange prefers to take its fees. -/
  feeCurrency : String
  /-- The time of the trades. -/
  window : Window
  /-- The price at which the open amount is valued. -/
  currentPrice : Decimal
deriving DecidableEq

namespace ReportRequest

/-- The trades of the window, in the order of time. -/
def scope (q : ReportRequest) (ts : List Trade) : List Trade :=
  Trade.sortByTime (ts.filter fun t => q.window.contains t.time)

/-- The report that a finished replay adds up to. -/
def summarize (q : ReportRequest) (r : Replay) : Except Fault Report := do
  let p := r.position
  let unrealizedProfit ← p.unrealizedProfit q.currentPrice
  return {
    symbol := q.terms.market.symbol
    feeCurrency := q.feeCurrency
    window := q.window
    currentPrice := q.currentPrice
    tradeCount := r.trades.size
    checkpointCount := r.checkpoints.length
    buyVolume := r.buyVolume
    sellVolume := r.sellVolume
    grossProfit := p.grossProfit
    netProfit := p.netProfit
    feeTotal := p.feeTotal
    averageCost := p.averageCost
    stock := r.stock
    unrealizedProfit
    fees := p.fees }

/-- The report about a list of trades, which may be in any order.
Source: `calculate`. -/
def calculate (q : ReportRequest) (ts : List Trade) :
    Except Fault (Except ReportError Report) := do
  match q.window.inverted? with
  | some (start, stop) => return .error (.invertedWindow start stop)
  | none =>
    match ← Replay.start.append q.terms (q.scope ts) with
    | (.error reason, _) => return .error (.rejected reason)
    | (.ok _, r) => return .ok (← q.summarize r)

/-- The warnings that the calculation gives rise to, one for each fee that counts nothing.
Source: the log entries of `fee_in_quote` during `calculate`, none of which come after a fault. -/
def warnings (q : ReportRequest) (ts : List Trade) : List LogEntry :=
  if q.window.inverted?.isSome then []
  else if (Replay.objection? q.terms.market.symbol none (q.scope ts)).isSome then []
  else (Replay.start.begun q.terms (q.scope ts)).filterMap q.terms.warning?

end ReportRequest

/-! ## The text of a report -/

namespace Report

/-- The lines of the text.
Source: the text of `ProfitAndLossReport`. -/
def toLines (r : Report) : List String :=
  let bound (t : Option Instant) (otherwise : String) := (t.map Instant.toText).getD otherwise
  let line (label : String) (value : Decimal) := "  " ++ label ++ value.toText
  ["profit report for " ++ r.symbol ++ " (trading fee currency " ++ r.feeCurrency ++ ")",
    "  window:            " ++ bound r.window.start "beginning" ++ " -> " ++
      bound r.window.stop "now",
    "  trades:            " ++ Text.integer r.tradeCount ++ " (" ++
      Text.integer r.checkpointCount ++ " round-trips)",
    line "buy volume:        " r.buyVolume,
    line "sell volume:       " r.sellVolume,
    line "stock:             " r.stock,
    line "average cost:      " r.averageCost,
    line "current price:     " r.currentPrice,
    line "profit:            " r.grossProfit,
    line "net profit:        " r.netProfit,
    line "fees (quote):      " r.feeTotal,
    line "unrealized profit: " r.unrealizedProfit,
    "  currency fees:" ++ if r.fees.isEmpty then " none" else ""] ++
    r.fees.toList.map fun (currency, fee) => "    " ++ currency ++ ": " ++ fee.toText

/-- The text, without a line end behind the last line. -/
def toText (r : Report) : String := "\n".intercalate r.toLines

end Report

end CostBasis
