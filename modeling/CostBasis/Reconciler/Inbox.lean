import CostBasis.Trade

/-!
# Inboxes

Trades and signals on their way to a reconciler.  An inbox holds so many trades and no more, in the
order in which they came, and one signal to look at the pending trades again, however often it was
given.
-/

namespace CostBasis

/-- The reasons for which an inbox does not take a trade.
Source: `CollectorError`. -/
inductive InboxError where
  /-- Nobody will ever read it. -/
  | closed
  /-- There is no room. -/
  | full
deriving DecidableEq, Repr

/-- The wording of an error. -/
def InboxError.message : InboxError → String
  | .closed => "trade queue closed"
  | .full => "trade queue full"

/-- The state of an inbox.
Source: the two channels of a `TradeCollector`, seen by `CollectorHandle`; specification, sections
4.4, 5 and A6.  A channel also keeps the line of those who wait with a trade; that is left out
here. -/
structure Inbox where
  /-- How many trades it holds. -/
  capacity : Nat
  /-- The trades that nobody has read yet, the first one first. -/
  trades : List Trade
  /-- Whether the signal has been given and not been heeded yet. -/
  isSignalled : Bool
  /-- Whether somebody may still read it. -/
  isOpen : Bool
  /-- There is room for what is there. -/
  length_le : trades.length ≤ capacity

namespace Inbox

/-- An inbox for at least one trade. -/
def empty (capacity : Nat) : Inbox := ⟨max capacity 1, [], false, true, Nat.zero_le _⟩

/-- Puts a trade in.
Source: `try_queue_trade`, and what `queue_trade` does once there is room. -/
def put (i : Inbox) (t : Trade) : Except InboxError Inbox :=
  if !i.isOpen then .error .closed
  else if h : i.trades.length < i.capacity then
    .ok { i with
      trades := i.trades ++ [t]
      length_le := by
        rw [List.length_append]
        exact h }
  else .error .full

/-- Puts a trade in `copies` times.  A closed inbox drops it; a full one ends the attempt, and the
result is false.
Source: `push` of a stream that `bind_stream_for_background` was called for several times. -/
def putCopies (i : Inbox) (t : Trade) : (copies : Nat) → Bool × Inbox
  | 0 => (true, i)
  | copies + 1 =>
    match i.put t with
    | .ok i => i.putCopies t copies
    | .error .closed => i.putCopies t copies
    | .error .full => (false, i)

/-- Gives the signal.
Source: `emit` of `CollectorHandle`. -/
def signal (i : Inbox) : Inbox := if i.isOpen then { i with isSignalled := true } else i

/-- Heeds the signal. -/
def heed (i : Inbox) : Inbox := { i with isSignalled := false }

/-- Takes the first trade out. -/
def take? (i : Inbox) : Option (Trade × Inbox) :=
  match h : i.trades with
  | [] => none
  | t :: ts => some (t, { i with
      trades := ts
      length_le := by
        have := i.length_le
        rw [h] at this
        exact Nat.le_of_succ_le this })

/-- The inbox when nobody reads it any more: what is in it is lost.
Source: what is left when the receivers are dropped. -/
def close (i : Inbox) : Inbox :=
  { i with trades := [], isSignalled := false, isOpen := false, length_le := Nat.zero_le _ }

end Inbox

end CostBasis
