import CostBasis.Reconciler.Journal
import CostBasis.Reconciler.Pending
import Std.Data.ExtTreeSet

/-!
# Reconciling trades with orders

A reconciler takes the trades of one symbol as they come and applies each to the position once,
as soon as the order that it executes is known.  Until then the trade is pending.  Trades come in
live, one after another, or from the history; the second time a trade comes it has no effect.

What is known about orders is given with each step as a predicate on their numbers, since it is
others who find out about them.
-/

namespace CostBasis

/-- Where a trade comes from.
Source: `Origin`. -/
inductive Origin where
  /-- It came in as it was made. -/
  | live
  /-- It was found in the history. -/
  | recovered
deriving DecidableEq, Repr

/-- The event that an applied trade is announced by. -/
def Origin.announcement : Origin → Trade → Event
  | .live => .trade
  | .recovered => .recovery

/-- The state of a reconciler.
Source: `TradeCollector`; specification, sections 4.4 and A6.  The subscribers are kept apart in
`Subscribers`, the queue and the signal in `Inbox`, and the known orders are given with each call.
The log lines are left out, and so are the streams that hand over trades by the calls that are
modelled here. -/
structure Reconciler where
  /-- The symbol whose trades are taken. -/
  symbol : String
  /-- The terms on which trades are accounted for. -/
  terms : Terms
  /-- What the applied trades add up to. -/
  position : Position
  /-- The trades whose orders are not known yet. -/
  pending : Pending
  /-- The keys of the trades that have been applied. -/
  applied : Std.ExtTreeSet TradeKey
deriving DecidableEq

namespace Reconciler

/-- The reconciler before any trade.
Source: `new` of `TradeCollector`. -/
def start (symbol : String) (terms : Terms) : Reconciler :=
  ⟨symbol, terms, .flat, .empty symbol, ∅⟩

/-- The public state of the position. -/
def snapshot (r : Reconciler) : Snapshot := r.position.snapshot r.terms.market.symbol

/-- Whether a trade with that key has been applied.
Source: `is_applied`, and the set `done_trades` behind it. -/
def isApplied (r : Reconciler) (key : TradeKey) : Bool := r.applied.contains key

/-- Whether a trade can be applied at all.
Source: the checks of the symbol, the quantity and the price in `process_trade_from`. -/
def isSound (r : Reconciler) (t : Trade) : Bool :=
  t.symbol == r.symbol && t.quantity.isPositive && !t.price.isNegative

/-- Applies a trade, announces it, and announces what it has earned.
Source: `apply`.  The key is kept before the position is changed there; that shows only if the
position meets a fault, and then the program stops. -/
def apply (r : Reconciler) (origin : Origin) (t : Trade) : Journal Reconciler := do
  let (gain?, position) ← r.position.apply r.terms t
  Journal.announce (origin.announcement t)
  match gain? with
  | some gain => Journal.announce (.gain t gain)
  | none => pure ()
  return { r with position, applied := r.applied.insert t.key }

/-- Applies trades one after another.
Source: the loop at the end of `process`. -/
def applyAll (r : Reconciler) (origin : Origin) (ts : List Trade) : Journal Reconciler :=
  ts.foldlM (fun r t => r.apply origin t) r

/-- Announces the position. -/
def announcePosition (r : Reconciler) : Journal Unit := Journal.announce (.position r.snapshot)

/-- Takes a trade: applies it if its order is known, and otherwise keeps it pending.  The result
says whether the trade was applied.
Source: `process_trade`, and `process_trade_from` for both origins. -/
def deliver (r : Reconciler) (isKnown : UInt64 → Bool) (origin : Origin) (t : Trade) :
    Journal (Bool × Reconciler) := do
  if r.isApplied t.key || !r.isSound t then return (false, r)
  else if isKnown t.orderId then do
    let r ← r.apply origin t
    r.announcePosition
    return (true, r)
  else return (false, { r with pending := r.pending.add t })

/-- The pending trades that can be applied now.
Source: `ready` in `process`, in the order of the keys in which `filter` visits them. -/
def ready (r : Reconciler) (isKnown : UInt64 → Bool) : List Trade :=
  r.pending.toList.filter fun t => !r.isApplied t.key && isKnown t.orderId

/-- Applies the pending trades whose orders have become known, by ascending number, and forgets
those that have been applied in another way.  The result says whether a trade was applied.
Source: `process`, with `filter` of `TradeStore`. -/
def recheck (r : Reconciler) (isKnown : UInt64 → Bool) : Journal (Bool × Reconciler) := do
  let ready := r.ready isKnown
  let pending := r.pending.discard fun t => r.isApplied t.key || isKnown t.orderId
  let r := { r with pending }
  if ready.isEmpty then return (false, r)
  else do
    let r ← r.applyAll .live ready
    r.announcePosition
    return (true, r)

end Reconciler

end CostBasis
