import CostBasis.Csv.TradeFile
import CostBasis.Reconciler.Basic

/-!
# Recovering missed trades

A reconciler that has not been there for a while asks a history for the trades since a given
instant, and takes them one after another, as if they were made now, but for the event that
announces them.
-/

namespace CostBasis

/-! ## Histories -/

/-- A history that can be asked.
Source: the two that implement `TradeHistoryService`, which are `MockTradeHistory` and
`CsvTradeHistory`; specification, sections 6 and A7.  Services over a network are left out. -/
inductive TradeSource where
  /-- It is in memory. -/
  | memory (archive : Archive)
  /-- It is the export at `path`; `content` is what was read from there, or the reason why it could
  not be read. -/
  | file (path : String) (content : Except String (List UInt8))

/-- The answer of a history to a query.
Source: `query_trades`. -/
def TradeSource.answer (source : TradeSource) (symbol : String) (q : TradeQuery) :
    ExceptT QueryError (Except Fault) (List Trade) :=
  match source with
  | .memory archive => .mk (.ok (archive.answer symbol q))
  | .file path content => Csv.queryTrades path content symbol q

/-! ## Taking the answer -/

namespace Reconciler

/-- Takes trades one after another, and counts those that were applied.
Source: the loop in `recover`. -/
def deliverAll (r : Reconciler) (isKnown : UInt64 → Bool) (origin : Origin) (ts : List Trade) :
    Journal (Nat × Reconciler) :=
  ts.foldlM (fun (n, r) t => do
    let (isNew, r) ← r.deliver isKnown origin t
    return (if isNew then n + 1 else n, r)) (0, r)

/-- Takes the trades that a history has answered with, and counts those that were applied.  The
error of a history is passed on, and changes nothing.
Source: what `recover` does with the answer to its query. -/
def recover (r : Reconciler) (isKnown : UInt64 → Bool)
    (answer : Except QueryError (List Trade)) : Journal (Except QueryError Nat × Reconciler) :=
  match answer with
  | .error e => return (.error e, r)
  | .ok ts => do
    let (n, r) ← r.deliverAll isKnown .recovered ts
    return (.ok n, r)

/-- Asks a history for the trades since an instant and takes them, and counts those that were
applied.
Source: `recover`. -/
def recoverFrom (r : Reconciler) (isKnown : UInt64 → Bool) (source : TradeSource)
    (symbol : String) (start : Instant) : Journal (Except QueryError Nat × Reconciler) := do
  let answer ← (source.answer symbol (.since start)).run
  r.recover isKnown answer

end Reconciler

end CostBasis
