import CostBasis.Text.Utf8

/-!
# Comma-separated records

A text of lines with fields between commas, as bytes.  A line ends with a line feed, a carriage
return or both; lines without any character are skipped.  A field that begins with a quote runs to
the next lone quote, and what stands between belongs to it, two quotes for one.

Each record knows where it begins: directly behind the byte that ended the one before it.
-/

namespace CostBasis.Csv

/-- A place in a text.
Source: the positions in the errors of the reader that `parse_csv` uses. -/
structure Place where
  /-- One more than the number of line feeds before the place. -/
  line : Nat
  /-- The number of bytes before the place. -/
  byte : Nat
deriving DecidableEq, Repr

/-- The place behind a byte. -/
def Place.behind (p : Place) (b : UInt8) : Place :=
  ⟨if b = 10 then p.line + 1 else p.line, p.byte + 1⟩

/-- The fields of one line. -/
structure Record where
  /-- How many records come before it. -/
  number : Nat
  /-- Where it begins. -/
  place : Place
  /-- The bytes of its fields. -/
  fields : List (List UInt8)
deriving DecidableEq

/-- Whether a byte ends a line. -/
def isLineEnd (b : UInt8) : Bool := b == 10 || b == 13

/-- The byte that divides fields. -/
def comma : UInt8 := 44

/-- The byte that quotes a field. -/
def quote : UInt8 := 34

/-- Where in a field the reader is. -/
inductive Mode where
  /-- Before its first byte. -/
  | start
  /-- In plain text. -/
  | plain
  /-- In quoted text. -/
  | quoted
  /-- Behind a quote in quoted text, which may be its end. -/
  | closing
deriving DecidableEq, Repr

/-- Reads the fields of a record up to the byte that ends it.  `field` holds the bytes of the
field that is being read, and `fields` the fields before it, the last ones first.
Source: the grammar of the reader that `parse_csv` uses, with its defaults: commas, quotes that are
doubled inside a quoted field, and no escape character. -/
def readFields (mode : Mode) (field : List UInt8) (fields : List (List UInt8)) (place : Place) :
    List UInt8 → List (List UInt8) × Place × List UInt8
  | [] => ((field.reverse :: fields).reverse, place, [])
  | b :: bytes =>
    let place := place.behind b
    let isQuote := b == quote
    if mode = .quoted then
      if isQuote then readFields .closing field fields place bytes
      else readFields .quoted (b :: field) fields place bytes
    else if mode = .closing ∧ isQuote then readFields .quoted (b :: field) fields place bytes
    else if mode = .start ∧ isQuote then readFields .quoted field fields place bytes
    else if b = comma then readFields .start [] (field.reverse :: fields) place bytes
    else if isLineEnd b then ((field.reverse :: fields).reverse, place, bytes)
    else readFields .plain (b :: field) fields place bytes

/-- Skips the bytes that end lines. -/
def skipLineEnds (place : Place) : List UInt8 → Place × List UInt8
  | [] => (place, [])
  | b :: bytes =>
    if isLineEnd b then skipLineEnds (place.behind b) bytes else (place, b :: bytes)

/-- Reads no more than `fuel` records. -/
def readRecords : (fuel number : Nat) → Place → List UInt8 → List Record
  | 0, _, _, _ => []
  | fuel + 1, number, place, bytes =>
    match skipLineEnds place bytes with
    | (_, []) => []
    | (first, bytes) =>
      let (fields, next, rest) := readFields .start [] [] first bytes
      ⟨number, place, fields⟩ :: readRecords fuel (number + 1) next rest

/-- The records of a text, which may begin with a byte order mark.
Source: the reader that `parse_csv` uses.  How it fills its buffers is left out. -/
def records (bytes : List UInt8) : List Record :=
  let read place bytes := readRecords bytes.length 0 place bytes
  match bytes with
  | 0xEF :: 0xBB :: 0xBF :: rest => read ⟨1, 3⟩ rest
  | bytes => read ⟨1, 0⟩ bytes

end CostBasis.Csv
