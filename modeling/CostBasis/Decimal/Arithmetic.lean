import CostBasis.Decimal.Basic

/-!
# Arithmetic of decimals

Each operation takes the exact rational result and rounds it once, by `Decimal.fit`.  How many
places a result may have follows from the operands: a sum has as many as the summands, a product
as many as its factors together.  What fits nowhere is a `Fault`, named for the operation that met
it.  A calculation stops at its first fault.
-/

namespace CostBasis

/-- The reasons for which a calculation with decimals stops.
Source: the messages with which `+`, `-`, `*` and `/` stop the program. -/
inductive Fault where
  /-- A sum is out of range. -/
  | additionOverflow
  /-- A difference is out of range. -/
  | subtractionOverflow
  /-- A product is out of range. -/
  | multiplicationOverflow
  /-- A quotient is out of range. -/
  | divisionOverflow
  /-- A divisor is zero. -/
  | divisionByZero
deriving DecidableEq, Repr

/-- The wording of a fault. -/
def Fault.message : Fault → String
  | .additionOverflow => "Addition overflowed"
  | .subtractionOverflow => "Subtraction overflowed"
  | .multiplicationOverflow => "Multiplication overflowed"
  | .divisionOverflow => "Division overflowed"
  | .divisionByZero => "Division by zero"

namespace Decimal

/-- A result, or the fault that there is none. -/
def orFault (result : Option Decimal) (fault : Fault) : Except Fault Decimal :=
  match result with
  | some d => .ok d
  | none => .error fault

/-- The sum, with as many places as the summands have. -/
def add (a b : Decimal) : Except Fault Decimal :=
  orFault (fit (a.toRat + b.toRat) (max a.scale b.scale)) .additionOverflow

/-- The difference, with as many places as the operands have. -/
def sub (a b : Decimal) : Except Fault Decimal :=
  orFault (fit (a.toRat - b.toRat) (max a.scale b.scale)) .subtractionOverflow

/-- The product, with as many places as the factors have together. -/
def mul (a b : Decimal) : Except Fault Decimal :=
  orFault (fit (a.toRat * b.toRat) (a.scale + b.scale)) .multiplicationOverflow

/-- The quotient, if the divisor is not zero and the quotient is in range.  Where one coefficient
divides the other, the quotient has the places that the dividend has more than the divisor.  Any
other quotient has as few places as it needs, and all there are if it never ends.
Source: `checked_div`, which has no result for a quotient out of range either, and `/`. -/
def div? (a b : Decimal) : Option Decimal :=
  if b.isZero then none
  else if a.coeff % b.coeff = 0 then fit (a.toRat / b.toRat) (a.scale - b.scale)
  else (fit (a.toRat / b.toRat) maxScale).map reduce

/-- The quotient. -/
def div (a b : Decimal) : Except Fault Decimal :=
  if b.isZero then .error .divisionByZero else orFault (a.div? b) .divisionOverflow

/-- The sum of a list, from the left.
Source: `sum` of `Decimal`. -/
def sum (ds : List Decimal) : Except Fault Decimal :=
  ds.foldlM add zero

end Decimal

end CostBasis
