import CostBasis.Json.Value

/-!
# Writing JSON

A value is written in one line without blanks, or with each item on a line of its own.
-/

namespace CostBasis.Json

/-- What stands between the items of a text. -/
structure Layout where
  /-- What stands before an item, or before a closing bracket, at a depth. -/
  lineBreak : Nat → List Char
  /-- What stands between a key and its value. -/
  colon : List Char

/-- One line without blanks. -/
def Layout.compact : Layout := ⟨fun _ => [], [':']⟩

/-- Each item on a line of its own, two blanks for each depth. -/
def Layout.indented : Layout := ⟨fun depth => '\n' :: List.replicate (2 * depth) ' ', [':', ' ']⟩

/-- A literal in quotes. -/
def quoted (literal : List Char) : List Char := '"' :: literal ++ ['"']

mutual

/-- The characters of a value at a depth.
Source: the two writers of JSON that the serialization of a report and of a trade go by. -/
def render (layout : Layout) (depth : Nat) : Value → List Char
  | .null => "null".toList
  | .bool true => "true".toList
  | .bool false => "false".toList
  | .number literal => literal
  | .string literal => quoted literal
  | .array [] => ['[', ']']
  | .array (v :: vs) =>
    '[' :: layout.lineBreak (depth + 1) ++ render layout (depth + 1) v ++
      renderItems layout (depth + 1) vs ++ layout.lineBreak depth ++ [']']
  | .object [] => ['\x7b', '\x7d']
  | .object ((k, v) :: ms) =>
    '\x7b' :: layout.lineBreak (depth + 1) ++ quoted k ++ layout.colon ++
      render layout (depth + 1) v ++ renderMembers layout (depth + 1) ms ++
      layout.lineBreak depth ++ ['\x7d']

/-- The further items of an array. -/
def renderItems (layout : Layout) (depth : Nat) : List Value → List Char
  | [] => []
  | v :: vs => ',' :: layout.lineBreak depth ++ render layout depth v ++ renderItems layout depth vs

/-- The further members of an object. -/
def renderMembers (layout : Layout) (depth : Nat) : List (List Char × Value) → List Char
  | [] => []
  | (k, v) :: ms =>
    ',' :: layout.lineBreak depth ++ quoted k ++ layout.colon ++ render layout depth v ++
      renderMembers layout depth ms

end

/-- The text of a value. -/
def write (layout : Layout) (v : Value) : String := String.ofList (render layout 0 v)

end CostBasis.Json
