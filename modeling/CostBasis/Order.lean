import CostBasis.Trade
import Std.Data.ExtTreeMap

/-!
# Orders

The orders that the desk knows of.  A trade counts only once its order is known.
-/

namespace CostBasis

/-- The state of an order.
Source: `OrderStatus`. -/
inductive OrderStatus where
  /-- Accepted and not executed. -/
  | new
  /-- Executed in part. -/
  | partiallyFilled
  /-- Executed in full. -/
  | filled
  /-- Withdrawn. -/
  | canceled
  /-- Never accepted. -/
  | rejected
deriving DecidableEq, Repr

namespace OrderStatus

/-- The name of a state. -/
def toText : OrderStatus → String
  | .new => "new"
  | .partiallyFilled => "partially_filled"
  | .filled => "filled"
  | .canceled => "canceled"
  | .rejected => "rejected"

/-- Whether the order was closed without being executed further.
Source: `is_cancelled`. -/
def isCancelled : OrderStatus → Bool
  | .canceled | .rejected => true
  | _ => false

end OrderStatus

/-- An order.
Source: `Order`; specification, section A2. -/
structure Order where
  /-- The number that the exchange gave to the order. -/
  id : UInt64
  /-- The symbol that is traded. -/
  symbol : String
  /-- Whether the base currency is bought or sold. -/
  side : Side
  /-- The amount of the base currency. -/
  quantity : Decimal
  /-- The price asked or offered. -/
  price : Decimal
  /-- How far the order has come. -/
  status : OrderStatus
deriving DecidableEq

/-- The known orders.
Source: `OrderStore`; specification, sections 4.1 and A4.  The lock around it and that its copies
share what they know are left out: what is known at one moment is one value. -/
structure KnownOrders where
  /-- The orders by their numbers. -/
  byId : Std.ExtTreeMap UInt64 Order
  /-- Whether an order is forgotten when it is cancelled. -/
  forgetsCancelled : Bool
deriving DecidableEq

namespace KnownOrders

/-- No order is known. -/
def empty (forgetsCancelled : Bool) : KnownOrders := ⟨∅, forgetsCancelled⟩

/-- Makes an order known, in place of one with the same number.
Source: `add` of `OrderStore`. -/
def add (known : KnownOrders) (order : Order) : KnownOrders :=
  { known with byId := known.byId.insert order.id order }

/-- Makes orders known, one after another.
Source: `add_many`. -/
def addAll (known : KnownOrders) (orders : List Order) : KnownOrders :=
  orders.foldl add known

/-- Forgets an order.
Source: `remove`; the order that was there can be had with `get?` before. -/
def remove (known : KnownOrders) (id : UInt64) : KnownOrders :=
  { known with byId := known.byId.erase id }

/-- Takes over the news about an order, which may be that it is to be forgotten.
Source: `update`. -/
def update (known : KnownOrders) (order : Order) : KnownOrders :=
  if known.forgetsCancelled && order.status.isCancelled then known.remove order.id
  else known.add order

/-- The order with a number.
Source: `get`. -/
def get? (known : KnownOrders) (id : UInt64) : Option Order := known.byId[id]?

/-- Whether an order is known.
Source: `exists`, the one thing that a reconciler asks. -/
def contains (known : KnownOrders) (id : UInt64) : Bool := known.byId.contains id

/-- The orders by ascending number.
Source: `all`. -/
def toList (known : KnownOrders) : List Order := known.byId.values

/-- How many orders are known.
Source: `len`. -/
def size (known : KnownOrders) : Nat := known.byId.size

end KnownOrders

end CostBasis
