import CostBasis.Decimal.Arithmetic
import CostBasis.Text.Basic

/-!
# The text of a decimal

`Decimal.toText` writes the one canonical text: plain positional notation without exponent, plus
sign or trailing zeros.  `Decimal.ofText` reads more than that: a leading sign, a point at either
end, `_` between digits, more digits than fit (which round the number) and an exponent.
-/

namespace CostBasis

open Text (digits fixedDigits digitValue? trimBlanks)

namespace Decimal

/-! ## Writing -/

/-- The magnitude in positional notation, with all its places. -/
def magnitudeChars (d : Decimal) : List Char :=
  let unit := Nat.pow 10 d.scale
  if d.scale = 0 then digits d.coeff.natAbs
  else digits (d.coeff.natAbs / unit) ++ '.' :: fixedDigits d.scale (d.coeff.natAbs % unit)

/-- The canonical text, character by character. -/
def toChars (d : Decimal) : List Char :=
  if d.isNegative then '-' :: d.reduce.magnitudeChars else d.reduce.magnitudeChars

/-- The canonical text.
Source: `to_canonical_string`. -/
def toText (d : Decimal) : String := String.ofList d.toChars

instance : ToString Decimal := ⟨toText⟩

/-! ## Reading -/

/-- What is wrong with the text of a decimal.
Source: the errors of `from_str_canonical`. -/
inductive ReadError where
  /-- There is no text. -/
  | empty
  /-- A second point. -/
  | twoPoints
  /-- A separator before the first digit. -/
  | leadingSeparator
  /-- A character that belongs to no number. -/
  | unknownCharacter
  /-- A sign or a point alone. -/
  | noDigits
  /-- The integer part is out of range. -/
  | tooManyDigits
  /-- The integer part is out of range once the first place is rounded into it. -/
  | roundedOutOfRange
  /-- The exponent is not a number. -/
  | badExponent
  /-- The exponent moves the point by more places than there are. -/
  | scaleTooLarge (places : Nat)
  /-- The number is out of range once the exponent is applied. -/
  | outOfRange
deriving DecidableEq, Repr

/-- The wording of an error. -/
def ReadError.message : ReadError → String
  | .empty => "Invalid decimal: empty"
  | .twoPoints => "Invalid decimal: two decimal points"
  | .leadingSeparator => "Invalid decimal: must start lead with a number"
  | .unknownCharacter => "Invalid decimal: unknown character"
  | .noDigits => "Invalid decimal: no digits found"
  | .tooManyDigits => "Invalid decimal: overflow from too many digits"
  | .roundedOutOfRange => "Invalid decimal: overflow from mantissa after rounding"
  | .badExponent => "Failed to parse"
  | .scaleTooLarge places =>
    "Scale exceeds the maximum precision allowed: " ++ Text.integer places ++ " > 28"
  | .outOfRange => "Number exceeds maximum value that can be represented."

/-- The error that a character is where only digits and separators may stand. -/
def ReadError.ofChar : Char → ReadError
  | '.' => .twoPoints
  | '_' => .leadingSeparator
  | _ => .unknownCharacter

/-- The part of a number that has been read. -/
structure Scan where
  /-- The digits so far, as one number. -/
  mantissa : Nat
  /-- How many of them stand after the point. -/
  places : Nat
  /-- Whether the point has been read. -/
  pointSeen : Bool
  /-- Whether a digit has been read. -/
  digitSeen : Bool
  /-- Whether the mantissa was beyond `Scan.narrowLimit` before its last digit. -/
  isWide : Bool
  /-- The mantissa has 96 bits. -/
  mantissa_lt : mantissa < coeffBound
  /-- There are at most 28 places. -/
  places_le : places ≤ maxScale

/-- Nothing read yet. -/
def Scan.start : Scan := ⟨0, 0, false, false, false, Nat.zero_lt_succ _, Nat.zero_le _⟩

/-- From this mantissa on, a separator in the place of the rounding digit is skipped. -/
def Scan.narrowLimit : Nat := (UInt64.size - 1) / 10 - 255

/-- The mantissa with one more unit in its last place.  If it does not fit, the last place is
given up. -/
def Scan.roundUp (s : Scan) : Except ReadError Scan :=
  if h : s.mantissa + 1 < coeffBound then
    .ok { s with mantissa := s.mantissa + 1, mantissa_lt := h }
  else if s.places = 0 then .error .roundedOutOfRange
  else .ok { s with
    mantissa := (s.mantissa + 1 + 4) / 10
    places := s.places - 1
    mantissa_lt := by
      have := s.mantissa_lt
      have : coeffBound = 79228162514264337593543950336 := rfl
      omega
    places_le := by
      have := s.places_le
      omega }

/-- Ends a number whose next digit `c` has no place of its own: halves are rounded up, and what
follows only has to look like digits. -/
def Scan.finish (s : Scan) (c : Char) (rest : List Char) : Except ReadError Scan := do
  match if c = '_' then some 0 else digitValue? c with
  | none => .error (ReadError.ofChar c)
  | some d =>
    let rounded ← if d < 5 then pure s else s.roundUp
    match rest.find? fun c => c ≠ '_' ∧ digitValue? c = none with
    | some c => .error (ReadError.ofChar c)
    | none => .ok rounded

/-- There is room for one more place, if the places behind the point are not all taken. -/
theorem Scan.next_places_le (s : Scan) (h : ¬(s.pointSeen = true ∧ s.places = maxScale)) :
    (if s.pointSeen then s.places + 1 else s.places) ≤ maxScale := by
  have hle := s.places_le
  split
  next hpoint => exact Nat.lt_of_le_of_ne hle fun hfull => h ⟨hpoint, hfull⟩
  next => exact hle

/-- Reads digits, separators and one point.
Source: the reader behind `from_str_canonical`.  It works on 64 bits as long as these suffice and on
96 bits from there; of the two phases only what tells them apart is left, the separator in the place
of the rounding digit. -/
def Scan.run (s : Scan) : List Char → Except ReadError Scan
  | [] => if s.digitSeen then .ok s else .error .noDigits
  | c :: rest =>
    if hfull : s.pointSeen = true ∧ s.places = maxScale then
      if c = '_' ∧ s.isWide then s.run rest else s.finish c rest
    else if c = '_' then
      if s.digitSeen then s.run rest else .error .leadingSeparator
    else if c = '.' then
      if s.pointSeen then .error .twoPoints else { s with pointSeen := true }.run rest
    else match digitValue? c with
      | none => .error .unknownCharacter
      | some d =>
        if h : s.mantissa * 10 + d < coeffBound then
          { mantissa := s.mantissa * 10 + d
            places := if s.pointSeen then s.places + 1 else s.places
            pointSeen := s.pointSeen
            digitSeen := true
            isWide := decide (narrowLimit ≤ s.mantissa)
            mantissa_lt := h
            places_le := s.next_places_le hfull : Scan }.run rest
        else if s.pointSeen then s.finish c rest
        else .error .tooManyDigits

/-- The number that has been read. -/
def Scan.toDecimal (s : Scan) : Decimal :=
  ofParts s.mantissa s.places (by simpa using s.mantissa_lt) s.places_le

/-- Reads positional notation with an optional sign. -/
def ofPlainChars : List Char → Except ReadError Decimal
  | [] => .error .empty
  | '-' :: cs => (Scan.start.run cs).map fun s => -s.toDecimal
  | '+' :: cs => (Scan.start.run cs).map Scan.toDecimal
  | cs => (Scan.start.run cs).map Scan.toDecimal

/-- Whether a character separates a number from its exponent. -/
def isExponentMark (c : Char) : Bool := c == 'e' || c == 'E'

/-- The number times a power of ten, if it is in range. -/
def shiftUp? (d : Decimal) (places : Nat) : Option Decimal :=
  if places ≤ d.scale then ofParts? d.coeff (d.scale - places)
  else ofParts? (d.coeff * (Nat.pow 10 (places - d.scale) : Nat)) 0

/-- The number over a power of ten.  Places beyond the last are rounded away first, halves going
away from zero. -/
def shiftDown? (d : Decimal) (places : Nat) : Option Decimal :=
  if d.scale + places ≤ maxScale then ofParts? d.coeff (d.scale + places)
  else ofParts? (Rounding.halfAway (d.toRat * (Nat.pow 10 (maxScale - places) : Nat))) maxScale

/-- Reads a number with an exponent. -/
def ofScientificChars (cs : List Char) : Except ReadError Decimal := do
  let base ← ofPlainChars (cs.takeWhile fun c => !isExponentMark c)
  let (isDown, exponent) := match (cs.dropWhile fun c => !isExponentMark c).drop 1 with
    | '-' :: cs => (true, cs)
    | cs => (false, cs)
  match Text.readUnsigned .decimal (UInt32.size - 1) exponent with
  | .error _ => .error .badExponent
  | .ok places =>
    if maxScale < places then .error (.scaleTooLarge places)
    else match if isDown then base.shiftDown? places else base.shiftUp? places with
      | some d => .ok d
      | none => .error .outOfRange

/-- Reads a number with or without an exponent, with nothing around it. -/
def ofChars (cs : List Char) : Except ReadError Decimal :=
  match ofPlainChars cs with
  | .ok d => .ok d
  | .error e => if cs.any isExponentMark then ofScientificChars cs else .error e

/-- Reads a number with blanks around it.
Source: `from_str_canonical`. -/
def ofText (s : String) : Except ReadError Decimal :=
  ofChars (trimBlanks s.toList)

end Decimal

end CostBasis
