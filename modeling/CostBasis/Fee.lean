import CostBasis.Log
import CostBasis.Trade

/-!
# Markets and fees

The market of a symbol has two currencies, and a precision of its prices and quantities.  Trades are
accounted for in its quote currency, and so are their fees: a fee in the quote currency counts as it
is, one in the base currency at the price of its trade, and one in any other currency at an exchange
rate.  Where no rate is known the fee counts nothing, and the trade is worth a warning.
-/

namespace CostBasis

/-! ## Markets -/

/-- The market of one symbol.
Source: `Market`; specification, section A2. -/
structure Market where
  /-- The symbol that is traded. -/
  symbol : String
  /-- The currency that is bought and sold. -/
  baseCurrency : String
  /-- The currency that prices are in. -/
  quoteCurrency : String
  /-- The number of places of a price. -/
  pricePrecision : UInt32
  /-- The number of places of a quantity. -/
  volumePrecision : UInt32
deriving DecidableEq

/-- The number of places of an average cost: those of a price and of a quantity together, as far
as 32 bits count them.
Source: `average_cost_scale`. -/
def Market.averageCostScale (m : Market) : Nat :=
  min (m.pricePrecision.toNat + m.volumePrecision.toNat) (UInt32.size - 1)

/-! ## Exchange rates -/

/-- A rate at which one currency is exchanged for another. -/
structure ExchangeRate where
  /-- The currency that is given. -/
  source : String
  /-- The currency that is taken. -/
  target : String
  /-- The units of `target` for one unit of `source`. -/
  rate : Decimal
deriving DecidableEq

/-- What is known about exchange rates.
Source: the two that implement `ExchangeRateLookup`, which are `NoExchangeRates` and
`StaticExchangeRates`; specification, section A3.  Tables that somebody else implements are left
out. -/
inductive ExchangeRates where
  /-- Nothing, not even that a currency is worth itself. -/
  | unknown
  /-- A table, of which later lines replace earlier ones for the same pair. -/
  | table (lines : List ExchangeRate)
deriving DecidableEq

namespace ExchangeRates

/-- The last line of a table for a pair of currencies. -/
def line? (lines : List ExchangeRate) (source target : String) : Option Decimal :=
  (lines.reverse.find? fun l => l.source == source && l.target == target).map (·.rate)

/-- The units of `target` for one unit of `source`.  A pair that the table has only the other way
round gets the inverse rate.
Source: `rate`.  The inverse rate is a rounded quotient. -/
def rate? (rates : ExchangeRates) (source target : String) : Option Decimal :=
  match rates with
  | .unknown => none
  | .table lines =>
    if source = target then some .one
    else match line? lines source target with
      | some rate => some rate
      | none => (line? lines target source).bind Decimal.one.div?

end ExchangeRates

/-! ## Fees -/

/-- The terms on which trades are accounted for.
Source: `FeeConverter` with the market that it is made for. -/
structure Terms where
  /-- The market of the trades. -/
  market : Market
  /-- The rates for fees in other currencies. -/
  rates : ExchangeRates
deriving DecidableEq

namespace Terms

/-- The way in which a fee is valued. -/
inductive FeeValuation where
  /-- There is no fee. -/
  | free
  /-- The fee is in the quote currency. -/
  | quoted
  /-- The fee is worth `rate` units of the quote currency for each unit. -/
  | converted (rate : Decimal)
  /-- The fee is in a currency without a rate. -/
  | unpriced
deriving DecidableEq

/-- The way in which the fee of a trade is valued. -/
def feeValuation (terms : Terms) (t : Trade) : FeeValuation :=
  if t.fee.isZero then .free
  else if t.feeCurrency = terms.market.quoteCurrency then .quoted
  else if t.feeCurrency = terms.market.baseCurrency then .converted t.price
  else match terms.rates.rate? t.feeCurrency terms.market.quoteCurrency with
    | some rate => .converted rate
    | none => .unpriced

/-- The fee of a trade in the quote currency.
Source: `fee_in_quote`. -/
def feeInQuote (terms : Terms) (t : Trade) : Except Fault Decimal :=
  match terms.feeValuation t with
  | .free | .unpriced => .ok .zero
  | .quoted => .ok t.fee
  | .converted rate => t.fee.mul rate

/-- The warning about a trade whose fee counts nothing.
Source: the log entry in `fee_in_quote`. -/
def warning? (terms : Terms) (t : Trade) : Option LogEntry :=
  if terms.feeValuation t = .unpriced then
    some {
      level := .warning
      message := "no exchange rate for fee currency, fee not charged to profit"
      fields := [
        ("trade", t.key.toText),
        ("fee", t.fee.toText),
        ("fee_currency", t.feeCurrency),
        ("quote_currency", terms.market.quoteCurrency)] }
  else none

end Terms

end CostBasis
