import CostBasis.Csv.Record
import CostBasis.Text.Basic

/-!
# Rows of a trade export

The columns of a trade export are found by the names in its first record.  A row is read in the
order of that record, and the first thing wrong with it is reported.
-/

namespace CostBasis.Csv

/-- The columns of a trade export.
Source: the fields of `Row` in `parse_csv`. -/
inductive Column where
  /-- The number of the trade. -/
  | id
  /-- The symbol that is traded. -/
  | symbol
  /-- The number of the order. -/
  | orderId
  /-- The side of the trade. -/
  | side
  /-- The price. -/
  | price
  /-- The quantity. -/
  | quantity
  /-- The fee. -/
  | fee
  /-- The currency of the fee. -/
  | feeCurrency
  /-- The time of the trade. -/
  | time
  /-- Whether the order was in the book before the trade; the one column that may be missing. -/
  | isMaker
deriving DecidableEq, Repr

namespace Column

/-- The columns in the order in which an export is written. -/
def all : List Column :=
  [.id, .symbol, .orderId, .side, .price, .quantity, .fee, .feeCurrency, .time, .isMaker]

/-- The name in the first record. -/
def name : Column → String
  | .id => "id"
  | .symbol => "symbol"
  | .orderId => "order_id"
  | .side => "side"
  | .price => "price"
  | .quantity => "quantity"
  | .fee => "fee"
  | .feeCurrency => "fee_currency"
  | .time => "time_ms"
  | .isMaker => "is_maker"

/-- The column of a name. -/
def ofName? (name : String) : Option Column := all.find? fun c => c.name == name

end Column

/-! ## What may be wrong with a row -/

/-- What may be wrong with a field. -/
inductive FieldError where
  /-- The field is no integer. -/
  | integer (cause : Text.IntegerError)
  /-- The field is no truth value. -/
  | bool
deriving DecidableEq, Repr

/-- The wording of an error. -/
def FieldError.message : FieldError → String
  | .integer cause => cause.message
  | .bool => "provided string was not `true` or `false`"

/-- What may be wrong with a row.
Source: the errors of the deserialization of a record. -/
inductive RowError where
  /-- The field at an index, from zero, has no value of its type. -/
  | badField (index : Nat) (cause : FieldError)
  /-- The row ends before a column. -/
  | endOfRow
  /-- A column is there twice. -/
  | duplicate (column : Column)
  /-- A column is not there. -/
  | missing (column : Column)
  /-- A row of a file without column names has only so many fields. -/
  | tooShort (length : Nat)
deriving DecidableEq

/-- The wording of an error. -/
def RowError.message : RowError → String
  | .badField index cause => "field " ++ Text.integer index ++ ": " ++ cause.message
  | .endOfRow => "expected field, but got end of row"
  | .duplicate column => "duplicate field `" ++ column.name ++ "`"
  | .missing column => "missing field `" ++ column.name ++ "`"
  | .tooShort length =>
    "invalid length " ++ Text.integer length ++ ", expected struct Row with 10 elements"

/-! ## Reading a row -/

/-- A row.
Source: `Row` in `parse_csv`. -/
structure Row where
  /-- The number of the trade. -/
  id : UInt64
  /-- The symbol that is traded. -/
  symbol : String
  /-- The number of the order. -/
  orderId : UInt64
  /-- The text of the side. -/
  side : String
  /-- The text of the price. -/
  price : String
  /-- The text of the quantity. -/
  quantity : String
  /-- The text of the fee. -/
  fee : String
  /-- The currency of the fee. -/
  feeCurrency : String
  /-- Milliseconds since 1970 began. -/
  time : Int64
  /-- Whether the order was in the book before the trade. -/
  isMaker : Bool
deriving DecidableEq

/-- The value of one field. -/
inductive Cell where
  /-- An unsigned integer. -/
  | unsigned (n : UInt64)
  /-- A signed integer. -/
  | signed (n : Int64)
  /-- A text. -/
  | text (s : String)
  /-- A truth value. -/
  | bool (b : Bool)
deriving DecidableEq

/-- Reads an integer in decimal digits, or in hexadecimal ones behind `0x`. -/
def readInteger {α : Type} (read : List Char → Text.Numeral → Except Text.IntegerError α) :
    List Char → Except Text.IntegerError α
  | '0' :: 'x' :: cs => read cs .hexadecimal
  | cs => read cs .decimal

/-- The value of a field in a column.
Source: the types of the fields of `Row`. -/
def Column.read (c : Column) (field : String) : Except FieldError Cell :=
  match c with
  | .id | .orderId =>
    ((readInteger Text.readUInt64 field.toList).mapError .integer).map .unsigned
  | .time => ((readInteger Text.readInt64 field.toList).mapError .integer).map .signed
  | .isMaker =>
    if field = "" then .ok (.bool false)
    else if field = "true" then .ok (.bool true)
    else if field = "false" then .ok (.bool false)
    else .error .bool
  | _ => .ok (.text field)

/-- Reads the fields of a row, of which the first one stands at `index`.  Columns without a known
name are passed over, and the row need not go on as far as the column that may be missing. -/
def readCells : (columns : List (Option Column)) → (index : Nat) → (fields : List String) →
    (seen : List (Column × Cell)) → Except RowError (List (Column × Cell))
  | [], _, _, seen => .ok seen
  | none :: columns, index, fields, seen =>
    match fields with
    | [] => .error .endOfRow
    | _ :: fields => readCells columns (index + 1) fields seen
  | some c :: columns, index, fields, seen =>
    if seen.any fun s => s.1 == c then .error (.duplicate c)
    else match fields with
      | [] =>
        if c = .isMaker then readCells columns index [] ((c, .bool false) :: seen)
        else .error .endOfRow
      | field :: fields =>
        match c.read field with
        | .error e => .error (.badField index e)
        | .ok cell => readCells columns (index + 1) fields ((c, cell) :: seen)

/-- The unsigned integer in a column. -/
def unsignedCell (cells : List (Column × Cell)) (c : Column) : Except RowError UInt64 :=
  match cells.lookup c with
  | some (.unsigned n) => .ok n
  | _ => .error (.missing c)

/-- The text in a column. -/
def textCell (cells : List (Column × Cell)) (c : Column) : Except RowError String :=
  match cells.lookup c with
  | some (.text s) => .ok s
  | _ => .error (.missing c)

/-- The signed integer in a column. -/
def signedCell (cells : List (Column × Cell)) (c : Column) : Except RowError Int64 :=
  match cells.lookup c with
  | some (.signed n) => .ok n
  | _ => .error (.missing c)

/-- The row of the cells that were read. -/
def Row.ofCells (cells : List (Column × Cell)) : Except RowError Row := do
  let id ← unsignedCell cells .id
  let symbol ← textCell cells .symbol
  let orderId ← unsignedCell cells .orderId
  let side ← textCell cells .side
  let price ← textCell cells .price
  let quantity ← textCell cells .quantity
  let fee ← textCell cells .fee
  let feeCurrency ← textCell cells .feeCurrency
  let time ← signedCell cells .time
  let isMaker := match cells.lookup .isMaker with
    | some (.bool b) => b
    | _ => false
  return { id, symbol, orderId, side, price, quantity, fee, feeCurrency, time, isMaker }

/-- The columns of a file: by name, or in the usual order if the first record has no readable
names. -/
inductive Header where
  /-- The columns, of which those without a known name are `none`. -/
  | named (columns : List (Option Column))
  /-- The usual columns in the usual order. -/
  | positional
deriving DecidableEq

/-- Reads a row.
Source: the deserialization of `Row` from the fields of a record. -/
def Row.read (header : Header) (fields : List String) : Except RowError Row := do
  match header with
  | .named columns => Row.ofCells (← readCells columns 0 fields [])
  | .positional =>
    let cells ← readCells ((Column.all.take fields.length).map some) 0 fields []
    if fields.length < 9 then .error (.tooShort fields.length) else Row.ofCells cells

end CostBasis.Csv
