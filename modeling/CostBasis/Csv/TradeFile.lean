import CostBasis.Csv.TradeRow
import CostBasis.History

/-!
# Trade exports

A trade export is a comma-separated text with a record of column names and one record for each
trade.  It is read as a whole or not at all.
-/

namespace CostBasis.Csv

open Text (Utf8.decode? Utf8.validLength trim)

/-- Whether a byte is a blank in ASCII. -/
def isAsciiBlank (b : UInt8) : Bool := b == 32 || b == 9 || b == 10 || b == 12 || b == 13

/-- The bytes without the ASCII blanks at either end. -/
def trimAscii (bytes : List UInt8) : List UInt8 :=
  ((bytes.dropWhile isAsciiBlank).reverse.dropWhile isAsciiBlank).reverse

/-- The texts of fields, without the blanks around them, or the index of the first field that is
not UTF-8 and the number of its bytes that are. -/
def decodeFields : (index : Nat) → List (List UInt8) → Except (Nat × Nat) (List String)
  | _, [] => .ok []
  | index, field :: fields =>
    match Utf8.decode? (trimAscii field) with
    | none => .error (index, Utf8.validLength (trimAscii field))
    | some s => (decodeFields (index + 1) fields).map (trim s :: ·)

/-- The columns that the first record names.
Source: the header row of the reader that `parse_csv` uses. -/
def Header.ofFields (fields : List (List UInt8)) : Header :=
  match decodeFields 0 fields with
  | .ok names => .named (names.map Column.ofName?)
  | .error _ => .positional

/-- Where a record is, in the wording of an error. -/
def Record.describe (r : Record) : String :=
  "record " ++ Text.integer r.number ++ " (line: " ++ Text.integer r.place.line ++ ", byte: " ++
    Text.integer r.place.byte ++ ")"

/-- Reads the row of a record.
Source: the deserialization of a record in `parse_csv`, with its errors. -/
def Row.ofRecord (header : Header) (r : Record) : Except QueryError Row :=
  match decodeFields 0 r.fields with
  | .error (index, valid) => .error <| .parse <|
    "CSV parse error: record " ++ Text.integer r.number ++ " (line " ++
      Text.integer r.place.line ++ ", field: " ++ Text.integer index ++ ", byte: " ++
      Text.integer r.place.byte ++ "): invalid utf-8: invalid UTF-8 in field " ++
      Text.integer index ++ " near byte index " ++ Text.integer valid
  | .ok fields =>
    (Row.read header fields).mapError fun e =>
      .parse ("CSV deserialize error: " ++ r.describe ++ ": " ++ e.message)

/-- Reads a decimal on the given line.
Source: `parse_decimal` in `parse_csv`. -/
def readDecimal (line : Nat) (what field : String) : Except QueryError Decimal :=
  (Decimal.ofText field).mapError fun e =>
    .parse ("line " ++ Text.integer line ++ ": invalid " ++ what ++ ": " ++ e.message)

/-- The trade of a row, which its errors place on the given line.
Source: the loop body of `parse_csv`. -/
def Row.toTrade (row : Row) (line : Nat) : ExceptT QueryError (Except Fault) Trade := do
  let some side := Side.ofText? row.side
    | throw (.parse ("line " ++ Text.integer line ++ ": invalid side: " ++ row.side))
  let price ← readDecimal line "price" row.price
  let quantity ← readDecimal line "quantity" row.quantity
  let fee ← readDecimal line "fee" row.fee
  Trade.priced row.id row.symbol row.orderId side price quantity fee row.feeCurrency ⟨row.time⟩
    row.isMaker

/-- Reads the trades of records, of which the first is on the given line.  Every record counts as
one line.
Source: the loop of `parse_csv`; the line that it names is counted from the trades so far. -/
def readTrades (header : Header) :
    (line : Nat) → List Record → ExceptT QueryError (Except Fault) (List Trade)
  | _, [] => return []
  | line, r :: rs => do
    let row ← Row.ofRecord header r
    let t ← row.toTrade line
    let ts ← readTrades header (line + 1) rs
    return t :: ts

/-- The trades of an export, in the order of its rows.
Source: `parse_csv`; specification, section A7. -/
def parseTrades (bytes : List UInt8) : ExceptT QueryError (Except Fault) (List Trade) :=
  match records bytes with
  | [] => return []
  | first :: rows => readTrades (Header.ofFields first.fields) 2 rows

/-- The trades of the export at `path`.  `content` is what was read from the file, or the reason why
it could not be read.
Source: the part of `query_trades` of `CsvTradeHistory` that reads the file. -/
def loadTrades (path : String) (content : Except String (List UInt8)) :
    ExceptT QueryError (Except Fault) (List Trade) := do
  let refuse (reason : String) := QueryError.other ("failed to read " ++ path ++ ": " ++ reason)
  let bytes ← (content.mapError refuse : Except QueryError (List UInt8))
  parseTrades bytes

/-- The answer of an export to a query.  A query that makes no sense is refused before the file is
read.
Source: `query_trades` of `CsvTradeHistory`. -/
def queryTrades (path : String) (content : Except String (List UInt8)) (symbol : String)
    (q : TradeQuery) : ExceptT QueryError (Except Fault) (List Trade) := do
  q.validate
  let ts ← loadTrades path content
  return q.select symbol ts

end CostBasis.Csv
