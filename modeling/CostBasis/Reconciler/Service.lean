import CostBasis.Reconciler.Basic
import CostBasis.Reconciler.Inbox

/-!
# The service of a reconciler

A service reads the inbox of a reconciler.  It wakes up for one of three things at a time: the
signal and the tick of its clock make it look at the pending trades again, and a trade in the inbox
is taken out and delivered.  A service that is stopped leaves in the inbox what it has not read,
and the next one goes on from there.
-/

namespace CostBasis

/-- How a service is set up.
Source: `CollectorConfig`. -/
structure ServiceSettings where
  /-- The number of trades that the inbox holds; it holds one at least. -/
  queueCapacity : Nat
  /-- The milliseconds between two ticks of the clock; there is one at least. -/
  recheckInterval : Nat
deriving DecidableEq

/-- Room for a hundred trades, and a tick every three seconds.
Source: `DEFAULT_QUEUE_CAPACITY` and `DEFAULT_RECHECK_INTERVAL`. -/
def ServiceSettings.standard : ServiceSettings := ⟨100, 3000⟩

/-- A reconciler and its inbox.
Source: a `TradeCollector` with its channels; specification, section 5. -/
structure Service where
  /-- The reconciler. -/
  reconciler : Reconciler
  /-- What is on its way to it. -/
  inbox : Inbox

/-- What a service wakes up for.
Source: the branches of the loop in `run`, but for the one that ends it. -/
inductive Wake where
  /-- The clock ticks. -/
  | tick
  /-- The signal has been given. -/
  | signal
  /-- There is a trade in the inbox. -/
  | trade
deriving DecidableEq, Repr

namespace Service

/-- The service with an empty inbox. -/
def start (reconciler : Reconciler) (settings : ServiceSettings) : Service :=
  ⟨reconciler, .empty settings.queueCapacity⟩

/-- Looks at the pending trades. -/
def recheck (s : Service) (isKnown : UInt64 → Bool) : Journal Service := do
  let (_, reconciler) ← s.reconciler.recheck isKnown
  return { s with reconciler }

/-- What the service does when it wakes up.  It does not wake up for a signal or a trade that is
not there, and for nothing once the inbox is closed.
Source: the loop body of `run`.  Which branch is taken when several could be is not decided here. -/
def onWake (s : Service) (isKnown : UInt64 → Bool) : Wake → Journal Service
  | .tick => if s.inbox.isOpen then s.recheck isKnown else return s
  | .signal =>
    if s.inbox.isSignalled then { s with inbox := s.inbox.heed }.recheck isKnown else return s
  | .trade =>
    match s.inbox.take? with
    | none => return s
    | some (t, inbox) => do
      let (_, reconciler) ← s.reconciler.deliver isKnown .live t
      return { reconciler, inbox }

/-- Wakes up several times. -/
def onWakes (s : Service) (isKnown : UInt64 → Bool) (wakes : List Wake) : Journal Service :=
  wakes.foldlM (fun s wake => s.onWake isKnown wake) s

/-- Goes on until there is neither a signal nor a trade: first the signal, then the trades. -/
def untilIdle (s : Service) (isKnown : UInt64 → Bool) : Journal Service :=
  s.onWakes isKnown (.signal :: List.replicate s.inbox.trades.length .trade)

/-- How often the clock ticks in the `duration` milliseconds after `elapsed`, the last one
included.
Source: the timer of `run`, which counts from its start. -/
def ticksIn (settings : ServiceSettings) (elapsed duration : Nat) : Nat :=
  let interval := max settings.recheckInterval 1
  (elapsed + duration) / interval - elapsed / interval

/-- Lets time pass.  Of several ticks with nothing between them the first one does all there is to
do, so the service wakes up once. -/
def pass (s : Service) (isKnown : UInt64 → Bool) (settings : ServiceSettings)
    (elapsed duration : Nat) : Journal Service :=
  if ticksIn settings elapsed duration = 0 then return s else s.onWake isKnown .tick

/-- The service whose inbox nobody reads any more. -/
def close (s : Service) : Service := { s with inbox := s.inbox.close }

/-- The service after a calculation, which has closed the inbox if it met a fault. -/
def afterwards (s : Service) (work : Journal Service) : Service :=
  match work.result with
  | .ok s => s
  | .error _ => s.close

end Service

end CostBasis
