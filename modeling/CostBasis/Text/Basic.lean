/-!
# Texts

What texts are made of, for all who read or write them: blank characters, decimal digits, integers
and lines.

Digits are the ten of ASCII; those of other scripts are ordinary characters.  An integer is written
as an optional sign and at least one digit, and a minus sign is taken only where negative numbers
are.  It is read from the left and the first thing wrong with it is the error, so a number that has
already grown too large is not searched for bad digits.
-/

namespace CostBasis.Text

/-! ## Blank characters -/

/-- Whether a character has the Unicode property `White_Space`. -/
def isBlank (c : Char) : Bool :=
  let n := c.toNat
  (9 ≤ n && n ≤ 13) || n == 32 || n == 0x85 || n == 0xA0 || n == 0x1680 ||
    (0x2000 ≤ n && n ≤ 0x200A) || n == 0x2028 || n == 0x2029 || n == 0x202F || n == 0x205F ||
    n == 0x3000

/-- The characters without the blanks at either end. -/
def trimBlanks (cs : List Char) : List Char :=
  ((cs.dropWhile isBlank).reverse.dropWhile isBlank).reverse

/-- The text without the blanks at either end. -/
def trim (s : String) : String :=
  String.ofList (trimBlanks s.toList)

/-! ## Decimal digits -/

/-- The value of an ASCII digit. -/
def digitValue? (c : Char) : Option Nat :=
  if '0' ≤ c ∧ c ≤ '9' then some (c.toNat - '0'.toNat) else none

/-- The value of a hexadecimal digit, in either case. -/
def hexValue? (c : Char) : Option Nat :=
  if '0' ≤ c ∧ c ≤ '9' then some (c.toNat - '0'.toNat)
  else if 'a' ≤ c ∧ c ≤ 'f' then some (c.toNat - 'a'.toNat + 10)
  else if 'A' ≤ c ∧ c ≤ 'F' then some (c.toNat - 'A'.toNat + 10)
  else none

/-- The last `width` decimal digits of `n`, padded with zeros on the left. -/
def fixedDigits : (width n : Nat) → List Char
  | 0, _ => []
  | width + 1, n => fixedDigits width (n / 10) ++ [Nat.digitChar (n % 10)]

/-- The decimal digits of `n`, without leading zeros. -/
def digits (n : Nat) : List Char :=
  Nat.toDigits 10 n

/-- The text of an integer: a minus sign if it is negative, then its digits. -/
def integer (n : Int) : String :=
  String.ofList (if n < 0 then '-' :: digits n.natAbs else digits n.natAbs)

/-- A digit is worth less than ten. -/
theorem digitValue?_lt {c : Char} {d : Nat} (h : digitValue? c = some d) : d < 10 := by
  unfold digitValue? at h
  split at h
  · rename_i hc
    have h9 : c.toNat ≤ '9'.toNat := hc.2
    have : '9'.toNat = 57 := rfl
    have : '0'.toNat = 48 := rfl
    simp only [Option.some.injEq] at h
    omega
  · simp at h

theorem length_fixedDigits (width n : Nat) : (fixedDigits width n).length = width := by
  induction width generalizing n with
  | zero => rfl
  | succ width ih => simp [fixedDigits, ih]

/-! ## Reading integers -/

/-- What is wrong with the text of an integer. -/
inductive IntegerError where
  /-- There is no text. -/
  | empty
  /-- A character is not a digit. -/
  | invalidDigit
  /-- The number is above the largest one allowed. -/
  | tooLarge
  /-- The number is below the smallest one allowed. -/
  | tooSmall
deriving DecidableEq, Repr

/-- The wording of an error. -/
def IntegerError.message : IntegerError → String
  | .empty => "cannot parse integer from empty string"
  | .invalidDigit => "invalid digit found in string"
  | .tooLarge => "number too large to fit in target type"
  | .tooSmall => "number too small to fit in target type"

/-- The way in which digits are written. -/
structure Numeral where
  /-- The number of digits there are. -/
  radix : Nat
  /-- The value of a digit. -/
  value? : Char → Option Nat

/-- Ten digits. -/
def Numeral.decimal : Numeral := ⟨10, digitValue?⟩

/-- Sixteen digits, letters in either case. -/
def Numeral.hexadecimal : Numeral := ⟨16, hexValue?⟩

/-- Reads digits behind a number `acc` already read, up to the magnitude `limit`. -/
def readMagnitude (numeral : Numeral) (limit : Nat) (beyond : IntegerError) :
    (acc : Nat) → List Char → Except IntegerError Nat
  | acc, [] => .ok acc
  | acc, c :: rest =>
    match numeral.value? c with
    | none => .error .invalidDigit
    | some d =>
      if acc * numeral.radix + d ≤ limit then
        readMagnitude numeral limit beyond (acc * numeral.radix + d) rest
      else .error beyond

/-- Reads a number from `0` to `limit`. -/
def readUnsigned (numeral : Numeral) (limit : Nat) : List Char → Except IntegerError Nat
  | [] => .error .empty
  | ['+'] => .error .invalidDigit
  | '+' :: cs => readMagnitude numeral limit .tooLarge 0 cs
  | cs => readMagnitude numeral limit .tooLarge 0 cs

/-- Reads a number from `-(limit + 1)` to `limit`. -/
def readSigned (numeral : Numeral) (limit : Nat) : List Char → Except IntegerError Int
  | ['-'] => .error .invalidDigit
  | '-' :: cs => (readMagnitude numeral (limit + 1) .tooSmall 0 cs).map fun n => -(n : Int)
  | cs => (readUnsigned numeral limit cs).map Int.ofNat

/-- Reads an unsigned number of 64 bits. -/
def readUInt64 (cs : List Char) (numeral : Numeral) : Except IntegerError UInt64 :=
  (readUnsigned numeral (UInt64.size - 1) cs).map UInt64.ofNat

/-- Reads a signed number of 64 bits. -/
def readInt64 (cs : List Char) (numeral : Numeral) : Except IntegerError Int64 :=
  (readSigned numeral (UInt64.size / 2 - 1) cs).map Int64.ofInt

/-- Reads an unsigned number of 32 bits. -/
def readUInt32 (cs : List Char) (numeral : Numeral) : Except IntegerError UInt32 :=
  (readUnsigned numeral (UInt32.size - 1) cs).map UInt32.ofNat

/-! ## Lines -/

/-- The parts of a text between line feeds. -/
def splitLines : List Char → List (List Char)
  | [] => [[]]
  | c :: cs =>
    if c = '\n' then [] :: splitLines cs
    else match splitLines cs with
      | [] => [[c]]
      | line :: lines => (c :: line) :: lines

/-- A line without the carriage return before its line feed. -/
def chomp (line : List Char) : List Char :=
  if line.getLast? = some '\r' then line.dropLast else line

/-- The lines that the parts of a text are.  A part without a line feed behind it is a line if
there is anything in it. -/
def linesOfParts : List (List Char) → List (List Char)
  | [] => []
  | [last] => if last.isEmpty then [] else [last]
  | part :: parts => chomp part :: linesOfParts parts

/-- The lines of a text. -/
def lines (s : String) : List String :=
  (linesOfParts (splitLines s.toList)).map String.ofList

/-- The text with each line but the first moved to the right. -/
def indentRest (margin : String) (s : String) : String :=
  ("\n" ++ margin).intercalate ((splitLines s.toList).map String.ofList)

end CostBasis.Text
