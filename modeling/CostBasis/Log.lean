import CostBasis.Text.Basic

/-!
# The log

What a program tells while it runs: entries of a level, a message and fields.  A message may carry
text from outside, so the characters that a terminal would act on are spelled out in it; the
values of fields are written as they are.
-/

namespace CostBasis

/-- How grave an entry is. -/
inductive LogLevel where
  /-- All is as it should be. -/
  | info
  /-- Something should be looked at. -/
  | warning
deriving DecidableEq, Repr

/-- The name of a level. -/
def LogLevel.toText : LogLevel → String
  | .info => "INFO"
  | .warning => "WARN"

/-- An entry of the log.
Source: the log lines of the command.  The time of a line, and the entries of the levels below,
which it does not show, are left out. -/
structure LogEntry where
  /-- How grave it is. -/
  level : LogLevel
  /-- What it says. -/
  message : String
  /-- The details, by name. -/
  fields : List (String × String)
deriving DecidableEq, Repr

namespace LogEntry

/-- A character of a message.  Bell, backspace, form feed, escape and delete are spelled with two
hexadecimal digits, and the control characters from 128 to 159 with their number in braces. -/
def spellOut (c : Char) : List Char :=
  let hex := [Nat.digitChar (c.toNat / 16), Nat.digitChar (c.toNat % 16)]
  if c ∈ ['\x07', '\x08', '\x0c', '\x1b', '\x7f'] then '\\' :: 'x' :: hex
  else if 0x80 ≤ c.toNat ∧ c.toNat ≤ 0x9F then '\\' :: 'u' :: '\x7b' :: hex ++ ['\x7d']
  else [c]

/-- A field: its name and its value. -/
def fieldText (field : String × String) : String := " " ++ field.1 ++ "=" ++ field.2

/-- The text of an entry. -/
def toText (e : LogEntry) : String :=
  e.level.toText ++ " " ++ String.ofList (e.message.toList.flatMap spellOut) ++
    String.join (e.fields.map fieldText)

end LogEntry

end CostBasis
