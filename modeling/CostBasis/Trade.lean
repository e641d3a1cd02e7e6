import CostBasis.Decimal.Text
import CostBasis.Instant

/-!
# Trades

A trade is one execution of an order: a quantity bought or sold at a price, with the fee paid for
it.  An exchange numbers the trades of each symbol, so symbol and number together are the key of a
trade.
-/

namespace CostBasis

/-- The direction of a trade or an order.
Source: `Side`. -/
inductive Side where
  /-- The base currency is bought. -/
  | buy
  /-- The base currency is sold. -/
  | sell
deriving DecidableEq, Repr

namespace Side

/-- The name of a side. -/
def toText : Side → String
  | .buy => "buy"
  | .sell => "sell"

instance : ToString Side := ⟨toText⟩

/-- The side that a word stands for, with blanks around it and in letters of either case.
Source: `parse` of `Side`. -/
def ofText? (s : String) : Option Side :=
  let word := String.ofList ((Text.trimBlanks s.toList).map Char.toLower)
  if word ∈ ["buy", "b", "bid"] then some .buy
  else if word ∈ ["sell", "s", "ask"] then some .sell
  else none

end Side

/-- What identifies a trade.
Source: `TradeKey`; specification, section 3. -/
structure TradeKey where
  /-- The symbol that is traded. -/
  symbol : String
  /-- The number that the exchange gave to the trade. -/
  id : UInt64
deriving DecidableEq

instance : Ord TradeKey := ⟨compareLex (compareOn TradeKey.symbol) (compareOn TradeKey.id)⟩

instance : Std.TransOrd TradeKey :=
  inferInstanceAs (Std.TransCmp (compareLex (compareOn TradeKey.symbol) (compareOn TradeKey.id)))

instance : Std.LawfulEqOrd TradeKey where
  eq_of_compare {a b} h := by
    have h : compareLex (compareOn TradeKey.symbol) (compareOn TradeKey.id) a b = .eq := h
    rw [compareLex_eq_eq] at h
    cases a
    cases b
    simpa [compareOn, Std.LawfulEqCmp.compare_eq_iff_eq] using h

/-- The symbol and the number. -/
def TradeKey.toText (k : TradeKey) : String :=
  k.symbol ++ "#" ++ Text.integer k.id.toNat

/-- An execution.
Source: `Trade`; specification, sections 3 and A2.  Symbols, currencies and the numbers of trades
and orders, which are types of their own there, are plain texts and numbers here. -/
structure Trade where
  /-- The number that the exchange gave to the trade. -/
  id : UInt64
  /-- The symbol that is traded. -/
  symbol : String
  /-- The order that is executed. -/
  orderId : UInt64
  /-- Whether the base currency is bought or sold. -/
  side : Side
  /-- The price of one unit of the base currency. -/
  price : Decimal
  /-- The amount of the base currency. -/
  quantity : Decimal
  /-- The amount of the quote currency. -/
  quoteQuantity : Decimal
  /-- The fee, in `feeCurrency`. -/
  fee : Decimal
  /-- The currency of the fee. -/
  feeCurrency : String
  /-- When the trade took place. -/
  time : Instant
  /-- Whether the order was in the book before the trade. -/
  isMaker : Bool
deriving DecidableEq

namespace Trade

/-- The trade whose quote quantity is its price times its quantity.
Source: `new` and `with_maker` of `Trade`. -/
def priced (id : UInt64) (symbol : String) (orderId : UInt64) (side : Side)
    (price quantity fee : Decimal) (feeCurrency : String) (time : Instant)
    (isMaker : Bool) : Except Fault Trade :=
  (price.mul quantity).map fun quoteQuantity =>
    { id, symbol, orderId, side, price, quantity, quoteQuantity, fee, feeCurrency, time, isMaker }

/-- What identifies the trade. -/
def key (t : Trade) : TradeKey := ⟨t.symbol, t.id⟩

/-- The quantity by which the trade changes a holding: negative for a sale.
Source: `signed_quantity`. -/
def signedQuantity (t : Trade) : Decimal :=
  match t.side with
  | .buy => t.quantity
  | .sell => -t.quantity

/-- One line about the trade. -/
def toText (t : Trade) : String :=
  "trade " ++ Text.integer t.id.toNat ++ " " ++ t.symbol ++ " " ++ t.side.toText ++ " " ++
    t.quantity.toText ++ " @ " ++ t.price.toText ++ " fee " ++ t.fee.toText ++ " " ++
    t.feeCurrency ++ " order " ++ Text.integer t.orderId.toNat ++ " at " ++ t.time.toText

/-! ## Order of time -/

/-- Earlier trades come first; of those at one instant, the one with the lower number; and of
those with one number, the one whose symbol comes first.
Source: the order of `TradeOrderingKey`, which the specification, section A2, gives without the
symbol. -/
def compareTime : Trade → Trade → Ordering :=
  compareLex (compareOn time) (compareLex (compareOn id) (compareOn symbol))

/-- Whether `a` may stand before `b`. -/
def notAfter (a b : Trade) : Bool := (compareTime a b).isLE

/-- The trades in the order of time.  Those that the order does not tell apart stay as they were.
Source: `sort_trades`. -/
def sortByTime (ts : List Trade) : List Trade := ts.mergeSort notAfter

end Trade

end CostBasis
