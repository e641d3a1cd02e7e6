import CostBasis.Binary64
import CostBasis.Json.Decode
import CostBasis.Order
import CostBasis.Report

/-!
# The records of the ledger as JSON

How each record is written as JSON, and how it is read back.  Decimals are numbers of binary
floating point, so reading back what was written may lose digits.  A decimal that is written as a
string is read exactly.
-/

namespace CostBasis

open Json (Value Numeral ofText ofInt ofOption ofMembers required optional)

/-! ## Simple values -/

namespace Decimal

/-- The decimal as a number of binary floating point.
Source: the serialization of `Decimal` as a floating point number. -/
def toJson (d : Decimal) : Value := .number d.toJsonNumber.toList

/-- The decimal of a number.  An integer of 64 bits is taken exactly, any other number by way of
binary floating point. -/
def ofNumeral? (n : Numeral) : Option Decimal :=
  match n.toInt?.filter fun i => Int64.minValue.toInt ≤ i && i < UInt64.size with
  | some i => ofParts? i 0
  | none => n.toBinary64?.bind fun v => (ofBinary64 n.isNegative v).toOption

/-- The decimal of a number or of a string with nothing around the number.
Source: the deserialization of `Decimal`. -/
def ofJson? : Value → Option Decimal
  | .number literal => ofNumeral? (Numeral.ofLiteral literal)
  | .string literal => (Json.unescape? literal).bind fun s => (ofChars s.toList).toOption
  | _ => none

end Decimal

/-- The milliseconds of an instant. -/
def Instant.toJson (t : Instant) : Value := ofInt t.milliseconds.toInt

/-- The instant of a number of milliseconds. -/
def Instant.ofJson? (v : Value) : Option Instant := v.toInt64?.map Instant.mk

/-- The name of a side. -/
def Side.toJson (s : Side) : Value := ofText s.toText

/-- The side of a name. -/
def Side.ofJson? (v : Value) : Option Side := do
  let word ← v.toWord?
  [Side.buy, .sell].find? fun s => s.toText == word

/-- The name of a state. -/
def OrderStatus.toJson (s : OrderStatus) : Value := ofText s.toText

/-- The state of a name. -/
def OrderStatus.ofJson? (v : Value) : Option OrderStatus := do
  let word ← v.toWord?
  [OrderStatus.new, .partiallyFilled, .filled, .canceled, .rejected].find? fun s =>
    s.toText == word

/-- The totals by currency. -/
def FeeTotals.toJson (totals : FeeTotals) : Value :=
  ofMembers (totals.toList.map fun (currency, fee) => (currency, fee.toJson))

/-- The totals of an object, of which a later member replaces an earlier one of the same key. -/
def FeeTotals.ofJson? (v : Value) : Option FeeTotals := do
  let members ← v.members?
  let entries ← members.mapM fun (currency, fee) => (Decimal.ofJson? fee).map (currency, ·)
  return entries.foldl (fun totals (currency, fee) => totals.insert currency fee) ∅

/-- A count of 64 bits. -/
def Json.countOf? (v : Value) : Option Nat := v.toUInt64?.map UInt64.toNat

/-! ## Records -/

/-- A trade as a record.
Source: the derived serialization of `Trade`. -/
def Trade.toJson (t : Trade) : Value := ofMembers [
  ("id", ofInt t.id.toNat),
  ("symbol", ofText t.symbol),
  ("order_id", ofInt t.orderId.toNat),
  ("side", t.side.toJson),
  ("price", t.price.toJson),
  ("quantity", t.quantity.toJson),
  ("quote_quantity", t.quoteQuantity.toJson),
  ("fee", t.fee.toJson),
  ("fee_currency", ofText t.feeCurrency),
  ("time", t.time.toJson),
  ("is_maker", .bool t.isMaker)]

/-- The trade of a record.  Where nothing says that the order was in the book, it was not.
Source: the derived deserialization of `Trade`. -/
def Trade.ofJson? (v : Value) : Option Trade := do
  match ← v.fields? ["id", "symbol", "order_id", "side", "price", "quantity", "quote_quantity",
      "fee", "fee_currency", "time", "is_maker"] 1 with
  | [id, symbol, orderId, side, price, quantity, quoteQuantity, fee, feeCurrency, time,
      isMaker] =>
    let id ← required Value.toUInt64? id
    let symbol ← required Value.toText? symbol
    let orderId ← required Value.toUInt64? orderId
    let side ← required Side.ofJson? side
    let price ← required Decimal.ofJson? price
    let quantity ← required Decimal.ofJson? quantity
    let quoteQuantity ← required Decimal.ofJson? quoteQuantity
    let fee ← required Decimal.ofJson? fee
    let feeCurrency ← required Value.toText? feeCurrency
    let time ← required Instant.ofJson? time
    let isMaker ← match isMaker with
      | some v => v.toBool?
      | none => some false
    return { id, symbol, orderId, side, price, quantity, quoteQuantity, fee, feeCurrency, time,
             isMaker }
  | _ => none

/-- An order as a record. -/
def Order.toJson (o : Order) : Value := ofMembers [
  ("id", ofInt o.id.toNat),
  ("symbol", ofText o.symbol),
  ("side", o.side.toJson),
  ("quantity", o.quantity.toJson),
  ("price", o.price.toJson),
  ("status", o.status.toJson)]

/-- The order of a record. -/
def Order.ofJson? (v : Value) : Option Order := do
  match ← v.fields? ["id", "symbol", "side", "quantity", "price", "status"] 0 with
  | [id, symbol, side, quantity, price, status] =>
    let id ← required Value.toUInt64? id
    let symbol ← required Value.toText? symbol
    let side ← required Side.ofJson? side
    let quantity ← required Decimal.ofJson? quantity
    let price ← required Decimal.ofJson? price
    let status ← required OrderStatus.ofJson? status
    return { id, symbol, side, quantity, price, status }
  | _ => none

/-- A market as a record. -/
def Market.toJson (m : Market) : Value := ofMembers [
  ("symbol", ofText m.symbol),
  ("base_currency", ofText m.baseCurrency),
  ("quote_currency", ofText m.quoteCurrency),
  ("price_precision", ofInt m.pricePrecision.toNat),
  ("volume_precision", ofInt m.volumePrecision.toNat)]

/-- The market of a record. -/
def Market.ofJson? (v : Value) : Option Market := do
  match ← v.fields? ["symbol", "base_currency", "quote_currency", "price_precision",
      "volume_precision"] 0 with
  | [symbol, baseCurrency, quoteCurrency, pricePrecision, volumePrecision] =>
    let symbol ← required Value.toText? symbol
    let baseCurrency ← required Value.toText? baseCurrency
    let quoteCurrency ← required Value.toText? quoteCurrency
    let pricePrecision ← required Value.toUInt32? pricePrecision
    let volumePrecision ← required Value.toUInt32? volumePrecision
    return { symbol, baseCurrency, quoteCurrency, pricePrecision, volumePrecision }
  | _ => none

/-- A checkpoint as a record. -/
def Checkpoint.toJson (c : Checkpoint) : Value := ofMembers [
  ("index", ofInt c.index),
  ("trade_id", ofInt c.tradeId.toNat),
  ("time", c.time.toJson)]

/-- The checkpoint of a record. -/
def Checkpoint.ofJson? (v : Value) : Option Checkpoint := do
  match ← v.fields? ["index", "trade_id", "time"] 0 with
  | [index, tradeId, time] =>
    let index ← required Json.countOf? index
    let tradeId ← required Value.toUInt64? tradeId
    let time ← required Instant.ofJson? time
    return { index, tradeId, time }
  | _ => none

/-- A snapshot as a record.
Source: the derived serialization of `PositionSnapshot`. -/
def Snapshot.toJson (s : Snapshot) : Value := ofMembers [
  ("symbol", ofText s.symbol),
  ("base", s.base.toJson),
  ("quote", s.quote.toJson),
  ("average_cost", s.averageCost.toJson),
  ("approximate_average_cost", s.netAverageCost.toJson),
  ("accumulated_profit", s.grossProfit.toJson),
  ("accumulated_net_profit", s.netProfit.toJson),
  ("accumulated_fee", s.feeTotal.toJson),
  ("fees", s.fees.toJson),
  ("trade_count", ofInt s.tradeCount),
  ("updated_at", ofOption Instant.toJson s.updatedAt)]

/-- The snapshot of a record. -/
def Snapshot.ofJson? (v : Value) : Option Snapshot := do
  match ← v.fields? ["symbol", "base", "quote", "average_cost", "approximate_average_cost",
      "accumulated_profit", "accumulated_net_profit", "accumulated_fee", "fees", "trade_count",
      "updated_at"] 0 with
  | [symbol, base, quote, averageCost, netAverageCost, grossProfit, netProfit, feeTotal, fees,
      tradeCount, updatedAt] =>
    let symbol ← required Value.toText? symbol
    let base ← required Decimal.ofJson? base
    let quote ← required Decimal.ofJson? quote
    let averageCost ← required Decimal.ofJson? averageCost
    let netAverageCost ← required Decimal.ofJson? netAverageCost
    let grossProfit ← required Decimal.ofJson? grossProfit
    let netProfit ← required Decimal.ofJson? netProfit
    let feeTotal ← required Decimal.ofJson? feeTotal
    let fees ← required FeeTotals.ofJson? fees
    let tradeCount ← required Json.countOf? tradeCount
    let updatedAt ← optional Instant.ofJson? updatedAt
    return { symbol, base, quote, averageCost, netAverageCost, grossProfit, netProfit, feeTotal,
             fees, tradeCount, updatedAt }
  | _ => none

/-- A report as a record.
Source: the derived serialization of `ProfitAndLossReport`. -/
def Report.toJson (r : Report) : Value := ofMembers [
  ("symbol", ofText r.symbol),
  ("trading_fee_currency", ofText r.feeCurrency),
  ("start_time", ofOption Instant.toJson r.window.start),
  ("end_time", ofOption Instant.toJson r.window.stop),
  ("current_price", r.currentPrice.toJson),
  ("num_trades", ofInt r.tradeCount),
  ("num_checkpoints", ofInt r.checkpointCount),
  ("buy_volume", r.buyVolume.toJson),
  ("sell_volume", r.sellVolume.toJson),
  ("profit", r.grossProfit.toJson),
  ("net_profit", r.netProfit.toJson),
  ("fee_in_quote", r.feeTotal.toJson),
  ("average_cost", r.averageCost.toJson),
  ("stock", r.stock.toJson),
  ("unrealized_profit", r.unrealizedProfit.toJson),
  ("currency_fees", r.fees.toJson)]

/-- The report of a record. -/
def Report.ofJson? (v : Value) : Option Report := do
  match ← v.fields? ["symbol", "trading_fee_currency", "start_time", "end_time", "current_price",
      "num_trades", "num_checkpoints", "buy_volume", "sell_volume", "profit", "net_profit",
      "fee_in_quote", "average_cost", "stock", "unrealized_profit", "currency_fees"] 0 with
  | [symbol, feeCurrency, start, stop, currentPrice, tradeCount, checkpointCount, buyVolume,
      sellVolume, grossProfit, netProfit, feeTotal, averageCost, stock, unrealizedProfit, fees] =>
    let symbol ← required Value.toText? symbol
    let feeCurrency ← required Value.toText? feeCurrency
    let start ← optional Instant.ofJson? start
    let stop ← optional Instant.ofJson? stop
    let currentPrice ← required Decimal.ofJson? currentPrice
    let tradeCount ← required Json.countOf? tradeCount
    let checkpointCount ← required Json.countOf? checkpointCount
    let buyVolume ← required Decimal.ofJson? buyVolume
    let sellVolume ← required Decimal.ofJson? sellVolume
    let grossProfit ← required Decimal.ofJson? grossProfit
    let netProfit ← required Decimal.ofJson? netProfit
    let feeTotal ← required Decimal.ofJson? feeTotal
    let averageCost ← required Decimal.ofJson? averageCost
    let stock ← required Decimal.ofJson? stock
    let unrealizedProfit ← required Decimal.ofJson? unrealizedProfit
    let fees ← required FeeTotals.ofJson? fees
    return { symbol, feeCurrency, window := ⟨start, stop⟩, currentPrice, tradeCount,
             checkpointCount, buyVolume, sellVolume, grossProfit, netProfit, feeTotal,
             averageCost, stock, unrealizedProfit, fees }
  | _ => none

end CostBasis
