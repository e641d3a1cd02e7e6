import CostBasis.Json.Reader
import CostBasis.Json.Writer

/-!
# Interpreting JSON

What a value means where an integer, a text or a record is wanted.  A record is an object, whose
unknown members are passed over and whose known ones stand at most once, or an array of its fields
in order.
-/

namespace CostBasis.Json

/-! ## Writing simple values -/

/-- A text as a value. -/
def ofText (s : String) : Value := .string (escape s)

/-- An integer as a value. -/
def ofInt (n : Int) : Value := .number (Text.integer n).toList

/-- A value that may be missing. -/
def ofOption {α : Type} (f : α → Value) : Option α → Value
  | some a => f a
  | none => .null

/-- An object with the given members. -/
def ofMembers (members : List (String × Value)) : Value :=
  .object (members.map fun (k, v) => (escape k, v))

/-! ## Reading simple values -/

namespace Value

/-- The integer that a value is, if it lies between the bounds. -/
def toIntIn? (lower upper : Int) : Value → Option Int
  | .number literal =>
    (Numeral.ofLiteral literal).toInt?.filter fun n => lower ≤ n && n ≤ upper
  | _ => none

/-- An unsigned integer of 64 bits. -/
def toUInt64? (v : Value) : Option UInt64 :=
  (v.toIntIn? 0 (UInt64.size - 1)).map fun n => UInt64.ofNat n.toNat

/-- A signed integer of 64 bits. -/
def toInt64? (v : Value) : Option Int64 :=
  (v.toIntIn? Int64.minValue.toInt Int64.maxValue.toInt).map Int64.ofInt

/-- An unsigned integer of 32 bits. -/
def toUInt32? (v : Value) : Option UInt32 :=
  (v.toIntIn? 0 (UInt32.size - 1)).map fun n => UInt32.ofNat n.toNat

/-- A truth value. -/
def toBool? : Value → Option Bool
  | .bool b => some b
  | _ => none

/-- A text. -/
def toText? : Value → Option String
  | .string literal => unescape? literal
  | _ => none

/-- The word of an alternative without content: a text, or an object with that key alone and the
content `null`. -/
def toWord? : Value → Option String
  | .string literal => unescape? literal
  | .object [(key, .null)] => unescape? key
  | _ => none

/-- The members of an object. -/
def members? : Value → Option (List (String × Value))
  | .object members => members.mapM fun (k, v) => (unescape? k).map (·, v)
  | _ => none

/-- The fields of a record by their names, where the last `spare` fields may be left out of an
array.  A field that is missing is `none`. -/
def fields? (names : List String) (spare : Nat) : Value → Option (List (Option Value))
  | .array items =>
    if items.length ≤ names.length ∧ names.length ≤ items.length + spare then
      some (items.map some ++ List.replicate (names.length - items.length) none)
    else none
  | v => do
    let members ← v.members?
    names.mapM fun name =>
      match members.filter fun m => m.1 == name with
      | [] => some none
      | [m] => some (some m.2)
      | _ => none

end Value

/-- A field that has to be there. -/
def required {α : Type} (f : Value → Option α) (field : Option Value) : Option α := field.bind f

/-- A field that may be missing or `null`. -/
def optional {α : Type} (f : Value → Option α) : Option Value → Option (Option α)
  | none | some .null => some none
  | some v => (f v).map some

end CostBasis.Json
