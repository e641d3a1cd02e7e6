import CostBasis.Decimal.Text

/-!
# Binary floating point of 64 bits

The numbers `m * 2 ^ e` with `m < 2 ^ 53` and `-1074 ≤ e`, as exact rationals.  An operation on
them is the exact operation followed by `Binary64.round`.  All numbers here are zero or positive;
who needs a sign keeps it beside the number.

`Binary64.shortest` gives the fewest decimal digits that read back as the same number.

In JSON a decimal is such a number: `Decimal.magnitudeToBinary64` says which one, and
`Decimal.ofBinary64` which decimal such a number is.
-/

namespace CostBasis

namespace Binary64

/-! ## Rounding to the grid -/

/-- A power of two with an exponent of either sign. -/
def twoPow (e : Int) : Rat :=
  if 0 ≤ e then ((Nat.pow 2 e.toNat : Nat) : Rat) else mkRat 1 (Nat.pow 2 (-e).toNat)

/-- A power of ten with an exponent of either sign. -/
def tenPow (e : Int) : Rat :=
  if 0 ≤ e then ((Nat.pow 10 e.toNat : Nat) : Rat) else mkRat 1 (Nat.pow 10 (-e).toNat)

/-- The exponent of the power of two at or below `q`, for a positive `q`. -/
def binade (q : Rat) : Int :=
  let guess : Int := (q.num.natAbs.log2 : Int) - q.den.log2
  if q < twoPow guess then guess - 1 else guess

/-- The number of the grid nearest to `q`, halves going to the even one.  Large numbers are
rounded as if there were no largest one. -/
def round (q : Rat) : Rat :=
  if q ≤ 0 then 0
  else
    let e := max (binade q - 52) (-1074)
    (Rounding.halfEven (q / twoPow e) : Rat) * twoPow e

/-- The nearest number of the grid, if there is one below `2 ^ 1024`. -/
def round? (q : Rat) : Option Rat :=
  let r := round q
  if r < twoPow 1024 then some r else none

/-- The product, rounded. -/
def mul (a b : Rat) : Rat := round (a * b)

/-- The quotient, rounded. -/
def div (a b : Rat) : Rat := round (a / b)

/-- Raises a running result by repeated squaring of `base`, rounding at each product. -/
def powLoop : (fuel : Nat) → (result base : Rat) → (n : Nat) → Rat
  | 0, result, _, _ => result
  | fuel + 1, result, base, n =>
    let result := if n % 2 = 1 then mul result base else result
    if n / 2 = 0 then result else powLoop fuel result (mul base base) (n / 2)

/-- The power `base ^ n` by repeated squaring, rounded at each product. -/
def pow (base : Rat) (n : Nat) : Rat :=
  powLoop (n + 1) 1 base n

/-! ## The shortest digits -/

/-- A positive decimal number in scientific form: `d₀.d₁d₂… * 10 ^ exponent`. -/
structure Scientific where
  /-- The digits, as one number, which ends in no zero. -/
  mantissa : Nat
  /-- The exponent of the first digit. -/
  exponent : Int
deriving DecidableEq, Repr

/-- The number of decimal digits of `n`. -/
def digitCount (n : Nat) : Nat := (Text.digits n).length

/-- The exponent of the power of ten at or below `q`, for a positive `q`. -/
def decade (q : Rat) : Int :=
  if 1 ≤ q then (digitCount q.floor.toNat : Int) - 1
  else
    let guess : Int := -(digitCount q.inv.floor.toNat : Int)
    if tenPow (guess + 1) ≤ q then guess + 1 else guess

/-- The better of the two neighbours of `v` on the grid of multiples of `10 ^ e`, if one of them
reads back as `v`: the nearer, and of two equally near ones the even one. -/
def neighbour? (v : Rat) (e : Int) : Option Nat :=
  let below := (v / tenPow e).floor.toNat
  let readsBack (m : Nat) : Bool := round ((m : Rat) * tenPow e) == v
  let rest := v / tenPow e - below
  let lowerFirst := rest < 1 / 2 ∨ (rest = 1 / 2 ∧ below % 2 = 0)
  let (first, second) := if lowerFirst then (below, below + 1) else (below + 1, below)
  if readsBack first then some first
  else if readsBack second then some second
  else none

/-- Searches the grids of `count`, `count + 1`, … digits. -/
def shortestFrom (v : Rat) (top : Int) : (fuel count : Nat) → Nat × Int
  | 0, count => ((v / tenPow (top - count + 1)).floor.toNat, top - count + 1)
  | fuel + 1, count =>
    match neighbour? v (top - count + 1) with
    | some m => (m, top - count + 1)
    | none => shortestFrom v top fuel (count + 1)

/-- Drops trailing zeros of `m * 10 ^ e`. -/
def dropZeros : (fuel m : Nat) → (e : Int) → Nat × Int
  | 0, m, e => (m, e)
  | fuel + 1, m, e => if m ≠ 0 ∧ m % 10 = 0 then dropZeros fuel (m / 10) (e + 1) else (m, e)

/-- The fewest digits that read back as the positive number `v`; of several, the nearest to it.
Seventeen always suffice. -/
def shortest (v : Rat) : Scientific :=
  let (m, e) := shortestFrom v (decade v) 17 1
  let (m, e) := dropZeros 18 m e
  ⟨m, e + digitCount m - 1⟩

namespace Scientific

/-- The digits as characters. -/
def digits (s : Scientific) : List Char := Text.digits s.mantissa

/-- Positional notation, with a point only if there are places after it. -/
def toPlain (s : Scientific) : List Char :=
  let digits := s.digits
  if s.exponent < 0 then
    ['0', '.'] ++ List.replicate (-s.exponent - 1).toNat '0' ++ digits
  else
    let whole := s.exponent.toNat + 1
    if digits.length ≤ whole then digits ++ List.replicate (whole - digits.length) '0'
    else digits.take whole ++ '.' :: digits.drop whole

/-- One digit before the point and an exponent behind the rest. -/
def toExponential (s : Scientific) : List Char :=
  let sign := if s.exponent < 0 then '-' else '+'
  let exponent := sign :: Text.digits s.exponent.natAbs
  match s.digits with
  | [] => []
  | [d] => d :: 'e' :: exponent
  | d :: ds => d :: '.' :: ds ++ 'e' :: exponent

end Scientific

/-- Positional notation without exponent. -/
def toPlain (v : Rat) : List Char :=
  if v = 0 then ['0'] else (shortest v).toPlain

/-- Positional notation from `10 ^ -5` to below `10 ^ 16`, with at least one place after the
point, and an exponent outside. -/
def toChars (v : Rat) : List Char :=
  if v = 0 then ['0', '.', '0']
  else
    let s := shortest v
    if -5 ≤ s.exponent ∧ s.exponent < 16 then
      let plain := s.toPlain
      if plain.contains '.' then plain else plain ++ ['.', '0']
    else s.toExponential

end Binary64

/-! ## Decimals -/

namespace Decimal

/-- The magnitude as a binary number.  The integer and the fractional part are converted apart,
added, and rounded back to the places that the decimal has.
Source: the conversion to a floating point number by which `Decimal` is serialized. -/
def magnitudeToBinary64 (d : Decimal) : Rat :=
  let unit := Nat.pow 10 d.scale
  let whole := Binary64.round ((d.coeff.natAbs / unit : Nat) : Rat)
  let fraction := Binary64.div (Binary64.round ((d.coeff.natAbs % unit : Nat) : Rat))
    (Binary64.round (unit : Rat))
  if fraction = 0 then whole
  else
    let shift := Binary64.pow 10 d.scale
    let shifted := Binary64.mul (Binary64.round (whole + fraction)) shift
    Binary64.div (Rounding.halfAway shifted) shift

/-- The number as JSON writes it. -/
def toJsonNumber (d : Decimal) : String :=
  let magnitude := Binary64.toChars d.magnitudeToBinary64
  String.ofList (if d.isNegative then '-' :: magnitude else magnitude)

/-- The decimal with the digits of a binary number of the given sign.
Source: the conversion from a floating point number by which `Decimal` is deserialized.  It goes by
way of the shortest digits. -/
def ofBinary64 (isNegative : Bool) (v : Rat) : Except ReadError Decimal :=
  let magnitude := Binary64.toPlain v
  ofChars (if isNegative then '-' :: magnitude else magnitude)

end Decimal

end CostBasis
