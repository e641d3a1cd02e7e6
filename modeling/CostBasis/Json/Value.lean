import CostBasis.Binary64

/-!
# JSON values

A JSON value as it is written: numbers and strings keep the characters that stand in the text, so
that reading a text and interpreting it are two steps.  A value that nobody asks for is never
interpreted; its numbers may be out of range and its strings may name half a character.
-/

namespace CostBasis.Json

/-- A JSON value. -/
inductive Value where
  /-- The word `null`. -/
  | null
  /-- The words `true` and `false`. -/
  | bool (b : Bool)
  /-- A number, by its characters. -/
  | number (literal : List Char)
  /-- A string, by the characters between its quotes. -/
  | string (literal : List Char)
  /-- An array. -/
  | array (items : List Value)
  /-- An object, with its members in the order of the text. -/
  | object (members : List (List Char × Value))

/-! ## Strings -/

/-- A character as it stands in a string. -/
def escapeChar (c : Char) : List Char :=
  match c with
  | '"' => ['\\', '"']
  | '\\' => ['\\', '\\']
  | '\n' => ['\\', 'n']
  | '\r' => ['\\', 'r']
  | '\t' => ['\\', 't']
  | '\x08' => ['\\', 'b']
  | '\x0c' => ['\\', 'f']
  | c =>
    if c.toNat < 32 then
      ['\\', 'u', '0', '0', Nat.digitChar (c.toNat / 16), Nat.digitChar (c.toNat % 16)]
    else [c]

/-- A text as it stands in a string. -/
def escape (s : String) : List Char := s.toList.flatMap escapeChar

/-- The number of four hexadecimal digits. -/
def hexUnit? (a b c d : Char) : Option Nat := do
  let a ← Text.hexValue? a
  let b ← Text.hexValue? b
  let c ← Text.hexValue? c
  let d ← Text.hexValue? d
  return ((a * 16 + b) * 16 + c) * 16 + d

/-- The character that a letter behind a backslash stands for. -/
def escaped? : Char → Option Char
  | '"' => some '"'
  | '\\' => some '\\'
  | '/' => some '/'
  | 'b' => some '\x08'
  | 'f' => some '\x0c'
  | 'n' => some '\n'
  | 'r' => some '\r'
  | 't' => some '\t'
  | _ => none

/-- The numbers of the characters of a string, in which a character beyond the first 65536 may be
two numbers. -/
def units? : List Char → Option (List Nat)
  | '\\' :: 'u' :: a :: b :: c :: d :: rest => do
    let unit ← hexUnit? a b c d
    let units ← units? rest
    return unit :: units
  | '\\' :: c :: rest => do
    let c ← escaped? c
    let units ← units? rest
    return c.toNat :: units
  | c :: rest => (units? rest).map (c.toNat :: ·)
  | [] => some []

/-- Whether a number is the first half of a character. -/
def isHighHalf (unit : Nat) : Bool := 0xD800 ≤ unit && unit < 0xDC00

/-- Whether a number is the second half of a character. -/
def isLowHalf (unit : Nat) : Bool := 0xDC00 ≤ unit && unit < 0xE000

/-- The characters with the given numbers, if there is no half without the other. -/
def joinHalves? : List Nat → Option (List Char)
  | [] => some []
  | [unit] => if isHighHalf unit || isLowHalf unit then none else some [Char.ofNat unit]
  | unit :: next :: rest =>
    if isHighHalf unit then
      if isLowHalf next then
        (joinHalves? rest).map
          (Char.ofNat (0x10000 + (unit - 0xD800) * 1024 + (next - 0xDC00)) :: ·)
      else none
    else if isLowHalf unit then none
    else (joinHalves? (next :: rest)).map (Char.ofNat unit :: ·)

/-- The text of a string. -/
def unescape? (literal : List Char) : Option String := do
  let units ← units? literal
  let chars ← joinHalves? units
  return String.ofList chars

/-! ## Numbers -/

/-- A number taken apart. -/
structure Numeral where
  /-- Whether a minus sign stands before it. -/
  isNegative : Bool
  /-- The digits before the point. -/
  whole : List Char
  /-- The digits behind the point. -/
  places : List Char
  /-- The exponent, or nothing if none is written. -/
  exponent : Option Int
deriving DecidableEq, Repr

/-- The number that digits stand for. -/
def ofDigits (cs : List Char) : Nat := Nat.ofDigitChars 10 cs 0

/-- Takes a number apart.
Source: the reader of numbers behind the deserialization; what is left out is how it reads while it
parses. -/
def Numeral.ofLiteral (literal : List Char) : Numeral :=
  let (isNegative, cs) := match literal with
    | '-' :: cs => (true, cs)
    | cs => (false, cs)
  let isDigit (c : Char) : Bool := (Text.digitValue? c).isSome
  let (whole, cs) := cs.span isDigit
  let (places, cs) := match cs with
    | '.' :: cs => cs.span isDigit
    | cs => ([], cs)
  let exponent : Option Int := match cs with
    | [] => none
    | _ :: '-' :: cs => some (-(ofDigits cs : Int))
    | _ :: '+' :: cs => some (ofDigits cs)
    | _ :: cs => some (ofDigits cs)
  { isNegative, whole, places, exponent }

namespace Numeral

/-- The integer, if the number is written as one.  A zero with a minus sign is none. -/
def toInt? (n : Numeral) : Option Int :=
  if !n.places.isEmpty || n.exponent.isSome then none
  else
    let magnitude := ofDigits n.whole
    if n.isNegative then if magnitude = 0 then none else some (-(magnitude : Int))
    else some magnitude

/-- Takes up digits behind the number `acc` as long as it has 64 bits, and hands back the rest. -/
def takeUp (acc : Nat) : List Char → Nat × List Char
  | [] => (acc, [])
  | c :: cs =>
    let next := acc * 10 + (Text.digitValue? c).getD 0
    if next < UInt64.size then takeUp next cs else (acc, c :: cs)

/-- The leading digits as a number of 64 bits, and the power of ten that it is multiplied by.
Digits that do not fit are dropped. -/
def leading (n : Numeral) : Nat × Int :=
  let (head, dropped) := takeUp 0 n.whole
  let (head, unused) := takeUp head n.places
  (head, n.exponent.getD 0 + dropped.length - (n.places.length - unused.length : Nat))

/-- The power of ten in binary floating point. -/
def tenPow (n : Nat) : Rat := Binary64.round (Binary64.tenPow n)

/-- Divides a number of 64 bits by a power of ten, which is taken in steps of 308 places as long
as there are more.  Two steps leave nothing of the number, so there is no need for more. -/
def divideByTenPow (v : Rat) (n : Nat) : Rat :=
  let steps := (n - 1) / 308
  let v := Nat.repeat (fun v => Binary64.div v (tenPow 308)) (min steps 2) v
  Binary64.div v (tenPow (n - 308 * steps))

/-- The magnitude in binary floating point, if it is in range: the leading digits times a power of
ten, both of them rounded before they are multiplied or divided. -/
def toBinary64? (n : Numeral) : Option Rat :=
  let (head, exponent) := n.leading
  let head := Binary64.round (head : Rat)
  if exponent < 0 then some (divideByTenPow head exponent.natAbs)
  else if head = 0 then some 0
  else if 308 < exponent then none
  else Binary64.round? (head * tenPow exponent.natAbs)

end Numeral

end CostBasis.Json
