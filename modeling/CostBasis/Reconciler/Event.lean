import CostBasis.Position

/-!
# Events

What a reconciler tells the world, and whom it tells.  Subscribers name the kind of event they
want to hear of, and hear of it in the order in which they subscribed.  Nobody hears of what
happened before.
-/

namespace CostBasis

/-- The kinds of events.
Source: `EventKind`. -/
inductive EventKind where
  /-- A trade was applied as it came in. -/
  | trade
  /-- A trade was applied from the history. -/
  | recovery
  /-- A trade earned a gain. -/
  | gain
  /-- The position has changed. -/
  | position
deriving DecidableEq, Repr

namespace EventKind

/-- The kinds in their usual order. -/
def all : List EventKind := [.trade, .recovery, .gain, .position]

/-- The name of a kind. -/
def name : EventKind → String
  | .trade => "Trade"
  | .recovery => "Recover"
  | .gain => "Profit"
  | .position => "PositionUpdate"

end EventKind

/-- An event.
Source: `CollectorEvent`; specification, section 6. -/
inductive Event where
  /-- The trade was applied as it came in. -/
  | trade (t : Trade)
  /-- The trade was applied from the history. -/
  | recovery (t : Trade)
  /-- The trade earned a gain. -/
  | gain (t : Trade) (gain : Gain)
  /-- The position has changed to this. -/
  | position (s : Snapshot)
deriving DecidableEq

/-- The kind of an event. -/
def Event.kind : Event → EventKind
  | .trade _ => .trade
  | .recovery _ => .recovery
  | .gain .. => .gain
  | .position _ => .position

/-! ## Subscribers -/

/-- A subscriber.
Source: an `EventHandler`.  All it does here is to count what it hears. -/
structure Subscriber (α : Type) where
  /-- Who it is. -/
  who : α
  /-- What it wants to hear of. -/
  kind : EventKind
  /-- How many events it has heard of. -/
  heard : Nat
deriving DecidableEq

/-- The subscriber after an event. -/
def Subscriber.after {α : Type} (one : Subscriber α) (e : Event) : Subscriber α :=
  if one.kind = e.kind then { one with heard := one.heard + 1 } else one

/-- A call of a subscriber. -/
structure Call (α : Type) where
  /-- Who is called. -/
  who : α
  /-- How many calls it has had, with this one. -/
  count : Nat
  /-- What it hears of. -/
  event : Event
deriving DecidableEq

/-- Subscribers in the order in which they subscribed.
Source: `EventRegistry`; specification, sections 6 and 9. -/
structure Subscribers (α : Type) where
  /-- The subscribers. -/
  list : List (Subscriber α)
deriving DecidableEq

namespace Subscribers

variable {α : Type}

/-- Nobody. -/
def empty : Subscribers α := ⟨[]⟩

/-- One more subscriber, behind the others.
Source: `subscribe`, and by way of it `on_trade`, `on_recover`, `on_profit` and
`on_position_update`. -/
def subscribe (s : Subscribers α) (kind : EventKind) (who : α) : Subscribers α :=
  ⟨s.list ++ [⟨who, kind, 0⟩]⟩

/-- How many want to hear of a kind.
Source: `handler_count`. -/
def count (s : Subscribers α) (kind : EventKind) : Nat :=
  (s.list.filter fun one => one.kind == kind).length

/-- The calls that an event leads to.
Source: `emit` of `EventRegistry`. -/
def calls (s : Subscribers α) (e : Event) : List (Call α) :=
  (s.list.filter fun one => one.kind == e.kind).map fun one => ⟨one.who, one.heard + 1, e⟩

/-- The subscribers after an event. -/
def after (s : Subscribers α) (e : Event) : Subscribers α :=
  ⟨s.list.map fun one => one.after e⟩

/-- The calls that a list of events leads to, and the subscribers after them. -/
def tellAll (s : Subscribers α) : List Event → List (Call α) × Subscribers α
  | [] => ([], s)
  | e :: es =>
    let (later, last) := (s.after e).tellAll es
    (s.calls e ++ later, last)

/-- A text with the number of subscribers for each kind that has any.
Source: the hand-written text of `EventRegistry` for debugging. -/
def toText (s : Subscribers α) : String :=
  let entries := (EventKind.all.filter fun kind => s.count kind ≠ 0).map fun kind =>
    "(" ++ kind.name ++ ", " ++ Text.integer (s.count kind) ++ ")"
  "EventRegistry \x7b handlers: [" ++ ", ".intercalate entries ++ "] \x7d"

end Subscribers

end CostBasis
