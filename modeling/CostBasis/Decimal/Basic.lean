/-!
# Decimal numbers of 96 bits

A `Decimal` is an integer below `2 ^ 96` in magnitude over a power of ten of at most `10 ^ 28`.
Trailing zeros are kept, as a trace of how precisely a number was given: `1.50` and `1.5` are the
same number and different decimals.  Only a zero has no trace, so that there is one of it.

`Decimal.toRat` is the number, and the view that the arithmetic is described with.  `Decimal.fit`
is the one rounding rule: an exact result goes to the finest scale at which it is representable.
`Decimal.reduce` drops the trailing zeros, which leaves one decimal for each number.
-/

namespace CostBasis

/-! ## Rounding to integers

The integer next to a rational number, for the two rules that this library rounds by. -/

namespace Rounding

/-- The integer nearest to `q`; of two equally near ones, the even one. -/
def halfEven (q : Rat) : Int :=
  let below := q.floor
  let rest := q - below
  if rest < 1 / 2 then below
  else if 1 / 2 < rest then below + 1
  else if below % 2 = 0 then below
  else below + 1

/-- The integer nearest to `q`; of two equally near ones, the one farther from zero. -/
def halfAway (q : Rat) : Int :=
  if q < 0 then -(1 / 2 - q).floor else (q + 1 / 2).floor

end Rounding

/-! ## The numbers -/

/-- Coefficients stay below this bound in magnitude. -/
abbrev Decimal.coeffBound : Nat := 79228162514264337593543950336

/-- The largest number of places after the point. -/
abbrev Decimal.maxScale : Nat := 28

/-- The number `coeff / 10 ^ scale`.
Source: `Decimal`; specification, sections 3 and A2.  The library behind it has a sign bit apart
from the coefficient; of a zero the sign and the places, which nothing but a number as JSON writes
it would show, are left out. -/
structure Decimal where
  /-- The number in units of its last place. -/
  coeff : Int
  /-- The number of places after the point. -/
  scale : Nat
  /-- The coefficient has 96 bits. -/
  coeff_lt : coeff.natAbs < Decimal.coeffBound
  /-- There are at most 28 places. -/
  scale_le : scale ≤ Decimal.maxScale
  /-- Zero has no places. -/
  scale_of_zero : coeff = 0 → scale = 0
deriving DecidableEq

namespace Decimal

/-! ### Numbers of given coefficient and scale -/

/-- The number zero. -/
def zero : Decimal := ⟨0, 0, by decide, by decide, fun _ => rfl⟩

/-- The number one. -/
def one : Decimal := ⟨1, 0, by decide, by decide, fun _ => rfl⟩

instance : Inhabited Decimal := ⟨zero⟩

/-- The number `m / 10 ^ s`, for a coefficient and a scale in range. -/
def ofParts (m : Int) (s : Nat) (hm : m.natAbs < coeffBound) (hs : s ≤ maxScale) : Decimal :=
  if h : m = 0 then zero else ⟨m, s, hm, hs, fun h' => absurd h' h⟩

/-- The number `m / 10 ^ s`, if both parts are in range. -/
def ofParts? (m : Int) (s : Nat) : Option Decimal :=
  if h : m.natAbs < coeffBound ∧ s ≤ maxScale then some (ofParts m s h.1 h.2) else none

/-- A signed integer of 64 bits is a decimal.
Source: `from_i64`. -/
def ofInt64 (n : Int64) : Decimal :=
  ⟨n.toInt, 0, by
    have := n.toInt_lt
    have := n.le_toInt
    show n.toInt.natAbs < 79228162514264337593543950336
    omega, by decide, fun _ => rfl⟩

/-! ## Trailing zeros -/

/-- Drops trailing zeros of `m / 10 ^ s`. -/
def dropZeros : (m : Int) → (s : Nat) → Int × Nat
  | m, 0 => (m, 0)
  | m, s + 1 => if m % 10 = 0 then dropZeros (m / 10) s else (m, s + 1)

theorem natAbs_dropZeros_le (m : Int) (s : Nat) : (dropZeros m s).1.natAbs ≤ m.natAbs := by
  induction s generalizing m with
  | zero => simp [dropZeros]
  | succ s ih =>
    simp only [dropZeros]
    split
    · have := ih (m / 10)
      omega
    · exact Nat.le_refl _

theorem scale_dropZeros_le (m : Int) (s : Nat) : (dropZeros m s).2 ≤ s := by
  induction s generalizing m with
  | zero => simp [dropZeros]
  | succ s ih =>
    simp only [dropZeros]
    split
    · have := ih (m / 10)
      omega
    · exact Nat.le_refl _

theorem reduced_dropZeros (m : Int) (s : Nat) :
    (dropZeros m s).2 = 0 ∨ (dropZeros m s).1 % 10 ≠ 0 := by
  induction s generalizing m with
  | zero => simp [dropZeros]
  | succ s ih =>
    simp only [dropZeros]
    split
    · exact ih (m / 10)
    · rename_i h
      exact Or.inr h

/-- The same number with as few places as possible.
Source: `normalize`, which `to_canonical_string` writes the digits of. -/
def reduce (d : Decimal) : Decimal where
  coeff := (dropZeros d.coeff d.scale).1
  scale := (dropZeros d.coeff d.scale).2
  coeff_lt := Nat.lt_of_le_of_lt (natAbs_dropZeros_le _ _) d.coeff_lt
  scale_le := Nat.le_trans (scale_dropZeros_le _ _) d.scale_le
  scale_of_zero h := by
    rcases reduced_dropZeros d.coeff d.scale with hs | hm
    · exact hs
    · exact absurd (by rw [h]; rfl) hm

/-- A reduced decimal has no places or a last place other than zero. -/
theorem reduced_reduce (d : Decimal) : d.reduce.scale = 0 ∨ d.reduce.coeff % 10 ≠ 0 :=
  reduced_dropZeros d.coeff d.scale

/-! ## The view as a rational number -/

/-- The number itself. -/
def toRat (d : Decimal) : Rat := mkRat d.coeff (Nat.pow 10 d.scale)

instance : LT Decimal := ⟨fun a b => a.toRat < b.toRat⟩

instance : LE Decimal := ⟨fun a b => a.toRat ≤ b.toRat⟩

instance (a b : Decimal) : Decidable (a < b) := inferInstanceAs (Decidable (a.toRat < b.toRat))

instance (a b : Decimal) : Decidable (a ≤ b) := inferInstanceAs (Decidable (a.toRat ≤ b.toRat))

instance : Min Decimal := minOfLe

/-- Whether two decimals are the same number.
Source: `eq` of `Decimal`, which does not look at trailing zeros. -/
def isEqual (a b : Decimal) : Bool := decide (a.toRat = b.toRat)

instance : Ord Decimal := ⟨fun a b => if a < b then .lt else if a.isEqual b then .eq else .gt⟩

/-- Whether the number is zero. -/
def isZero (d : Decimal) : Bool := d.coeff == 0

/-- Whether the number is above zero. -/
def isPositive (d : Decimal) : Bool := decide (0 < d.coeff)

/-- Whether the number is below zero. -/
def isNegative (d : Decimal) : Bool := decide (d.coeff < 0)

/-- The number with its sign changed. -/
def neg (d : Decimal) : Decimal where
  coeff := -d.coeff
  scale := d.scale
  coeff_lt := by simpa using d.coeff_lt
  scale_le := d.scale_le
  scale_of_zero h := d.scale_of_zero (by omega)

instance : Neg Decimal := ⟨neg⟩

/-- The number without its sign.
Source: `abs`. -/
def abs (d : Decimal) : Decimal := if d.isNegative then -d else d

/-! ## Rounding -/

/-- The exact number `q` rounded to `places` places, if the result is in range. -/
def roundAt? (q : Rat) (places : Nat) : Option Decimal :=
  ofParts? (Rounding.halfEven (q * (Nat.pow 10 places : Nat))) places

/-- The exact number `q` at the finest scale, of at most `places` places, at which it is
representable after rounding halves to even.  There is none if the number is too large for a
decimal without places.
Source: what `+`, `-`, `*` and `/` do with a result that has too many digits.  How the exact result
is computed, in words of 32 bits, is left out. -/
def fit (q : Rat) : (places : Nat) → Option Decimal
  | 0 => roundAt? q 0
  | places + 1 => match roundAt? q (places + 1) with
    | some d => some d
    | none => fit q places

/-- The number at no more than `places` places, halves going to even.
Source: `round_dp`, which rounds to even at a half. -/
def roundTo (d : Decimal) (places : Nat) : Decimal :=
  if d.scale ≤ places then d else (roundAt? d.toRat places).getD d

end Decimal

end CostBasis
