import CostBasis.Trade
import Std.Data.ExtTreeSet

/-!
# Trade history

What can be asked of a history of trades, and the answer: the trades of one symbol in a window of
time and behind a cursor, in the order of time, each key once.
-/

namespace CostBasis

/-- The reasons for which a query has no answer.
Source: `QueryError`; specification, section A9. -/
inductive QueryError where
  /-- The source could not be reached. -/
  | network (message : String)
  /-- The source answered with a failure. -/
  | http (status : UInt16) (message : String)
  /-- The answer could not be read. -/
  | parse (message : String)
  /-- The source was asked too often. -/
  | rateLimited
  /-- The query makes no sense. -/
  | invalidRequest (message : String)
  /-- Anything else. -/
  | other (message : String)
deriving DecidableEq, Repr

/-- The wording of an error. -/
def QueryError.message : QueryError → String
  | .network m => "Network error: " ++ m
  | .http status m => "HTTP error " ++ Text.integer status.toNat ++ ": " ++ m
  | .parse m => "Parse error: " ++ m
  | .rateLimited => "Rate limited"
  | .invalidRequest m => "Invalid request: " ++ m
  | .other m => "Error: " ++ m

/-- A span of time with both ends in it; an end that is not given is open. -/
structure Window where
  /-- The first instant. -/
  start : Option Instant
  /-- The last instant. -/
  stop : Option Instant
deriving DecidableEq

namespace Window

/-- All of time. -/
def always : Window := ⟨none, none⟩

/-- The two ends, if the first lies after the last. -/
def inverted? (w : Window) : Option (Instant × Instant) :=
  match w.start, w.stop with
  | some start, some stop => if stop < start then some (start, stop) else none
  | _, _ => none

/-- Whether an instant lies in the window. -/
def contains (w : Window) (t : Instant) : Bool :=
  w.start.all (fun start => decide (start ≤ t)) && w.stop.all (fun stop => decide (t ≤ stop))

end Window

/-- A query about the trades of a symbol.
Source: `TradeQueryOptions`; specification, section A7. -/
structure TradeQuery where
  /-- The time of the trades. -/
  window : Window
  /-- The cursor: trades have a higher number. -/
  afterId : Option UInt64
  /-- The largest number of trades in the answer. -/
  limit : Option Nat
deriving DecidableEq

namespace TradeQuery

/-- All trades from an instant on.
Source: `since`. -/
def since (start : Instant) : TradeQuery := ⟨⟨some start, none⟩, none, none⟩

/-- Refuses a window that ends before it starts.
Source: `validate` of `TradeQueryOptions`. -/
def validate (q : TradeQuery) : Except QueryError Unit :=
  match q.window.inverted? with
  | some (start, stop) => .error (.invalidRequest
      ("start time " ++ start.toText ++ " is after end time " ++ stop.toText))
  | none => .ok ()

/-- Whether a trade lies in the window and behind the cursor.
Source: `matches`. -/
def accepts (q : TradeQuery) (t : Trade) : Bool :=
  q.window.contains t.time && q.afterId.all fun id => decide (id < t.id)

/-- The trades whose key is neither in `seen` nor that of a trade before them.
Source: the set `seen` in `select_trades`. -/
def firstOfKeys (seen : Std.ExtTreeSet TradeKey) : List Trade → List Trade
  | [] => []
  | t :: ts =>
    if t.key ∈ seen then firstOfKeys seen ts else t :: firstOfKeys (seen.insert t.key) ts

/-- The answer without the limit. -/
def selectAll (q : TradeQuery) (symbol : String) (ts : List Trade) : List Trade :=
  firstOfKeys ∅ (Trade.sortByTime (ts.filter fun t => t.symbol == symbol && q.accepts t))

/-- The answer: of each key the earliest trade, in the order of time, as far as the limit.
Source: `select_trades`. -/
def select (q : TradeQuery) (symbol : String) (ts : List Trade) : List Trade :=
  match q.limit with
  | some n => (q.selectAll symbol ts).take n
  | none => q.selectAll symbol ts

end TradeQuery

/-- A history in memory.
Source: `MockTradeHistory`. -/
structure Archive where
  /-- The trades, in any order. -/
  trades : List Trade
  /-- The error that every sensible query meets, if there is one. -/
  refusal : Option QueryError
  /-- The number of queries so far. -/
  served : Nat

namespace Archive

/-- An archive that has not been asked yet. -/
def ofTrades (trades : List Trade) (refusal : Option QueryError) : Archive := ⟨trades, refusal, 0⟩

/-- The answer to a query.
Source: `query_trades` of `MockTradeHistory`. -/
def answer (a : Archive) (symbol : String) (q : TradeQuery) : Except QueryError (List Trade) := do
  q.validate
  match a.refusal with
  | some e => .error e
  | none => .ok (q.select symbol a.trades)

/-- The answer to a query, which is counted.
Source: `query_trades` and `query_count`. -/
def query (a : Archive) (symbol : String) (q : TradeQuery) :
    Except QueryError (List Trade) × Archive :=
  (a.answer symbol q, { a with served := a.served + 1 })

end Archive

end CostBasis
