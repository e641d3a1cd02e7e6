import CostBasis.Proofs.Binary64.Shortest
import CostBasis.Proofs.Decimal.Text
import CostBasis.Proofs.Json.Number

/-!
# The text of shortest digits

The digits of a number are written in positional notation, or in JSON also with an exponent.  Either
way, what is written is a number with these digits.

Main statements: `magnitudeChars_positional`, `ofDigitChars_whole_places`, `toChars_literal`,
`magnitude_literal`.
-/

namespace CostBasis.Binary64

open Text (AreDigits areDigits_append)
open Json (Literal)

namespace Scientific

variable {s : Scientific} {sign : Option Sign} {isNegative : Bool}

/-! ## Positional notation -/

/-- The number of digits that stand before the point unless the number is below one. -/
def wholeLength (s : Scientific) : ℕ := s.exponent.toNat + 1

/-- The digits before the point. -/
def whole (s : Scientific) : List Char :=
  if s.exponent < 0 then ['0']
  else s.digits.take s.wholeLength ++ List.replicate (s.wholeLength - s.digits.length) '0'

/-- The digits behind the point, if there are some. -/
def places? (s : Scientific) : Option (List Char) :=
  if s.exponent < 0 then some (List.replicate (-s.exponent - 1).toNat '0' ++ s.digits)
  else if s.digits.length ≤ s.wholeLength then none
  else some (s.digits.drop s.wholeLength)

/-- A number has digits. -/
theorem digits_ne_nil (s : Scientific) : s.digits ≠ [] := Nat.toDigits_ne_nil

/-- The digits of a number are digits. -/
theorem areDigits_digits (s : Scientific) : AreDigits s.digits := Text.areDigits_digits _

/-- Before the point there are digits, also where zeros fill up the places of a large number. -/
theorem areDigits_whole (s : Scientific) : AreDigits s.whole := by
  unfold whole
  split
  · exact List.forall_mem_singleton.mpr rfl
  · exact areDigits_append.mpr ⟨fun c hc => s.areDigits_digits c (List.mem_of_mem_take hc),
      Text.areDigits_replicate _⟩

/-- Behind the point there are digits, also where zeros stand before those of a small number. -/
theorem areDigits_places? (s : Scientific) : AreDigits (s.places?.getD []) := by
  unfold places?
  split_ifs
  · exact areDigits_append.mpr ⟨Text.areDigits_replicate _, s.areDigits_digits⟩
  · exact List.forall_mem_nil _
  · exact fun c hc => s.areDigits_digits c (List.mem_of_mem_drop hc)

/-- There is a digit before the point. -/
theorem whole_ne_nil (s : Scientific) : s.whole ≠ [] := by
  unfold whole
  split
  · exact List.cons_ne_nil _ _
  · have hdigits := s.digits_ne_nil
    simp [wholeLength, hdigits]

/-- The number in positional notation. -/
def positional (s : Scientific) (sign : Option Sign) : Positional where
  sign := sign
  whole := s.whole
  places := s.places?
  areDigits := areDigits_append.mpr ⟨s.areDigits_whole, s.areDigits_places?⟩
  ne_nil h := s.whole_ne_nil (List.append_eq_nil_iff.mp h).1

/-- In positional notation there are the digits and a point among, before or behind them, as the
exponent says. -/
theorem magnitudeChars_positional (s : Scientific) (sign : Option Sign) :
    (s.positional sign).magnitudeChars = s.toPlain := by
  unfold Positional.magnitudeChars positional toPlain whole places? wholeLength
  simp only
  split_ifs with hneg hlength
  · rfl
  · rw [List.take_of_length_le hlength, List.append_nil]
  · rw [Nat.sub_eq_zero_of_le (not_le.mp hlength).le, List.replicate_zero, List.append_nil]

/-- The digits stand for the mantissa. -/
theorem ofDigitChars_digits (s : Scientific) : Nat.ofDigitChars 10 s.digits 0 = s.mantissa :=
  Nat.ofDigitChars_ten_toDigits

/-- All the digits in positional notation, as one number, and how many of them are places.  The
three cases are a number below one, one with a point among its digits, and a whole one. -/
theorem ofDigitChars_whole_places (s : Scientific) :
    Nat.ofDigitChars 10 (s.whole ++ s.places?.getD []) 0 = s.mantissa * 10 ^ s.lowest.toNat ∧
      (s.places?.getD []).length = (-s.lowest).toNat := by
  have hlength : s.digits.length = digitCount s.mantissa := rfl
  have hpos := digitCount_pos s.mantissa
  have hvalue := s.ofDigitChars_digits
  unfold whole places? wholeLength lowest
  split_ifs with hneg hle
  · have hzero : (s.exponent + 1 - digitCount s.mantissa).toNat = 0 := by omega
    rw [Option.getD_some, ← List.append_assoc, Nat.ofDigitChars_append,
      show ['0'] = List.replicate 1 '0' from rfl, List.replicate_append_replicate,
      Nat.ofDigitChars_replicate_zero, mul_zero, hvalue, hzero, pow_zero, mul_one,
      List.length_append, List.length_replicate, hlength]
    exact ⟨rfl, by omega⟩
  · have hshift : (s.exponent + 1 - digitCount s.mantissa).toNat =
        s.exponent.toNat + 1 - s.digits.length := by omega
    rw [Option.getD_none, List.append_nil, List.take_of_length_le hle, Nat.ofDigitChars_append,
      Nat.ofDigitChars_replicate_zero, hvalue, hshift, mul_comm]
    exact ⟨rfl, by rw [List.length_nil]; omega⟩
  · have hzero : (s.exponent + 1 - digitCount s.mantissa).toNat = 0 := by omega
    have hnone : s.exponent.toNat + 1 - s.digits.length = 0 := by omega
    rw [Option.getD_some, hnone, List.replicate_zero, List.append_nil, List.take_append_drop,
      hvalue,
      hzero, pow_zero, mul_one, List.length_drop]
    exact ⟨rfl, by omega⟩

/-! ## JSON -/

/-- Whether the number is written without an exponent in JSON. -/
def IsModerate (s : Scientific) : Prop := -5 ≤ s.exponent ∧ s.exponent < 16

instance (s : Scientific) : Decidable s.IsModerate := inferInstanceAs (Decidable (_ ∧ _))

/-- The digits before the point in JSON. -/
def jsonWhole (s : Scientific) : List Char := if s.IsModerate then s.whole else s.digits.take 1

/-- The digits behind the point in JSON. -/
def jsonPlaces? (s : Scientific) : Option (List Char) :=
  if s.IsModerate then some (s.places?.getD ['0'])
  else if s.digits.length = 1 then none else some (s.digits.drop 1)

/-- Before and behind the point there are digits in JSON, whichever of its notations is taken. -/
theorem areDigits_json (s : Scientific) : AreDigits (s.jsonWhole ++ s.jsonPlaces?.getD []) := by
  have hplaces := s.areDigits_places?
  refine areDigits_append.mpr ⟨?_, ?_⟩
  · unfold jsonWhole
    split
    · exact s.areDigits_whole
    · exact fun c hc => s.areDigits_digits c (List.mem_of_mem_take hc)
  · unfold jsonPlaces?
    split_ifs
    · rw [Option.getD_some]
      cases h : s.places? with
      | none => exact List.forall_mem_singleton.mpr rfl
      | some ds =>
          rw [h] at hplaces
          exact hplaces
    · exact List.forall_mem_nil _
    · exact fun c hc => s.areDigits_digits c (List.mem_of_mem_drop hc)

/-- There is a digit before the point in JSON. -/
theorem jsonWhole_ne_nil (s : Scientific) : s.jsonWhole ≠ [] := by
  unfold jsonWhole
  split
  · exact s.whole_ne_nil
  · have hdigits := s.digits_ne_nil
    simp [hdigits]

/-- A zero before the point stands alone, as the grammar of JSON has it.  Only a number below one
has such a zero. -/
theorem leading_json (hs : s.mantissa ≠ 0) : ∀ cs, s.jsonWhole = '0' :: cs → cs = [] := by
  obtain ⟨d, ds, hdigits, -⟩ := Text.exists_digits_eq_cons s.mantissa
  have hd : d ≠ '0' := by
    rintro rfl
    exact hs (Text.digits_ne_zero_cons hdigits).1
  have hdigits : s.digits = d :: ds := hdigits
  intro cs h
  unfold jsonWhole whole wholeLength at h
  rw [hdigits, List.take_succ_cons, List.take_succ_cons, List.cons_append] at h
  split_ifs at h
  · exact (List.cons.inj h).2.symm
  · exact absurd (List.cons.inj h).1 hd
  · exact absurd (List.cons.inj h).1 hd

/-- If there is a point there is a digit behind it, which the grammar of JSON asks for as well. -/
theorem jsonPlaces?_ne_nil (s : Scientific) : ∀ ds ∈ s.jsonPlaces?, ds ≠ [] := by
  have hdigits := s.digits_ne_nil
  have hlength := List.length_pos_iff.mpr hdigits
  intro ds hds
  unfold jsonPlaces? places? at hds
  split_ifs at hds with hmoderate hneg hle hone
  · obtain rfl := Option.some.inj hds
    simp [hdigits]
  · obtain rfl := Option.some.inj hds
    exact List.cons_ne_nil _ _
  · obtain rfl := Option.some.inj hds
    rw [Option.getD_some, Ne, List.drop_eq_nil_iff]
    exact hle
  · exact absurd hds (Option.not_mem_none _)
  · obtain rfl := Option.some.inj hds
    rw [Ne, List.drop_eq_nil_iff]
    omega

/-- The number in JSON. -/
def literal (s : Scientific) (hs : s.mantissa ≠ 0) (isNegative : Bool) : Literal where
  isNegative := isNegative
  whole := s.jsonWhole
  places := s.jsonPlaces?
  exponent := if s.IsModerate then none else some s.exponent
  areDigits := s.areDigits_json
  whole_ne_nil := s.jsonWhole_ne_nil
  leading := leading_json hs
  places_ne_nil := s.jsonPlaces?_ne_nil

end Scientific

/-- The digits of a number are written as JSON has them, with an exponent or without one.  There are
as many cases as notations: with places, without them, and with an exponent behind one digit or
several. -/
theorem toChars_literal {v : ℚ} (hv : v ≠ 0) (hs : (shortest v).mantissa ≠ 0) (isNegative : Bool) :
    ((shortest v).literal hs isNegative).toChars =
      (if isNegative then ['-'] else []) ++ toChars v := by
  generalize hshortest : shortest v = s at hs
  have htoChars : toChars v = if s.IsModerate then
      (if s.toPlain.contains '.' then s.toPlain else s.toPlain ++ ['.', '0'])
    else s.toExponential := by
    rw [toChars, if_neg hv, hshortest]
    rfl
  rw [htoChars, Literal.toChars, List.append_assoc, List.append_assoc]
  refine congrArg _ ?_
  have hplain := s.magnitudeChars_positional none
  unfold Literal.placesChars Literal.exponentChars Scientific.literal Scientific.jsonWhole
    Scientific.jsonPlaces?
  by_cases hmoderate : s.IsModerate
  · simp only [if_pos hmoderate, List.append_nil]
    unfold Positional.magnitudeChars Scientific.positional at hplain
    cases hplaces : s.places? with
    | none =>
        simp only [hplaces, List.append_nil] at hplain
        have hcontains : s.toPlain.contains '.' = false := by
          rw [← hplain, List.contains_eq_mem, decide_eq_false_iff_not]
          exact s.areDigits_whole.not_mem rfl
        rw [hcontains, ← hplain]
        rfl
    | some ds =>
        simp only [hplaces] at hplain
        have hcontains : s.toPlain.contains '.' = true := by
          rw [← hplain, List.contains_eq_mem, decide_eq_true_iff]
          simp
        rw [if_pos hcontains, ← hplain]
        rfl
  · simp only [if_neg hmoderate]
    unfold Scientific.toExponential
    cases hdigits : s.digits with
    | nil => exact absurd hdigits s.digits_ne_nil
    | cons d ds =>
        cases ds with
        | nil => rfl
        | cons d' ds => simp

namespace Scientific

variable {s : Scientific} {isNegative : Bool}

/-- There is no point exactly if the last digit is no place. -/
theorem places?_eq_none_iff (s : Scientific) : s.places? = none ↔ 0 ≤ s.lowest := by
  have hlength : s.digits.length = digitCount s.mantissa := rfl
  have hpos := digitCount_pos s.mantissa
  unfold places? wholeLength lowest
  split_ifs
  · exact iff_of_false not_false (by omega)
  · exact iff_of_true rfl (by omega)
  · exact iff_of_false not_false (by omega)

/-- **In JSON** there are the same digits, of which the last one is a place; or the number is whole,
and then one zero stands behind the point. -/
theorem magnitude_literal (isNegative : Bool) (hs : s.mantissa ≠ 0) (hexponent : s.exponent < 16) :
    ((s.literal hs isNegative).magnitude = s.mantissa ∧
      (s.literal hs isNegative).lowest = s.lowest ∧ s.lowest < 0) ∨
    ((s.literal hs isNegative).magnitude = s.mantissa * 10 ^ s.lowest.toNat * 10 ∧
      (s.literal hs isNegative).lowest = -1 ∧ 0 ≤ s.lowest) := by
  have hlength : s.digits.length = digitCount s.mantissa := rfl
  have hpos := digitCount_pos s.mantissa
  obtain ⟨hvalue, hcount⟩ := s.ofDigitChars_whole_places
  have hnone := s.places?_eq_none_iff
  unfold Literal.magnitude Literal.lowest Json.ofDigits literal jsonWhole jsonPlaces?
  by_cases hmoderate : s.IsModerate
  · simp only [if_pos hmoderate, Option.getD_some, Option.getD_none]
    cases hplaces : s.places? with
    | none =>
        have hlow := hnone.mp hplaces
        rw [hplaces, Option.getD_none, List.append_nil] at hvalue
        rw [Option.getD_none, Text.ofDigitChars_append_digits, hvalue]
        exact .inr ⟨rfl, rfl, hlow⟩
    | some ds =>
        have hlow : s.lowest < 0 := by
          rw [← not_le, ← hnone, hplaces]
          exact Option.some_ne_none _
        rw [hplaces, Option.getD_some] at hvalue hcount
        rw [Option.getD_some, hvalue, hcount, Int.toNat_of_nonpos hlow.le, pow_zero, mul_one]
        exact .inl ⟨rfl, by omega, hlow⟩
  · have hsmall : s.exponent < -5 := by
      unfold IsModerate at hmoderate
      omega
    have hlow : s.lowest < 0 := by
      unfold lowest
      omega
    simp only [if_neg hmoderate, Option.getD_some]
    refine .inl ⟨?_, ?_, hlow⟩
    · split_ifs with hone
      · rw [Option.getD_none, List.append_nil, List.take_of_length_le hone.le]
        exact s.ofDigitChars_digits
      · rw [Option.getD_some, List.take_append_drop]
        exact s.ofDigitChars_digits
    · unfold lowest
      split_ifs with hone
      · rw [Option.getD_none, List.length_nil]
        omega
      · rw [Option.getD_some, List.length_drop]
        omega

/-- A number in JSON is never written as an integer: there is a point in it or an exponent.  So it
is always read by way of binary floating point. -/
theorem toInt?_literal (hs : s.mantissa ≠ 0) :
    (s.literal hs isNegative).numeral.toInt? = none := by
  have hne := s.jsonPlaces?_ne_nil
  refine if_pos ?_
  change (!(s.jsonPlaces?.getD []).isEmpty ||
    (if s.IsModerate then none else some s.exponent : Option ℤ).isSome) = true
  by_cases hmoderate : s.IsModerate
  · have hplaces : s.jsonPlaces? = some (s.places?.getD ['0']) := if_pos hmoderate
    rw [hplaces, Option.getD_some, List.isEmpty_eq_false_iff.mpr (hne _ hplaces)]
    rfl
  · rw [if_neg hmoderate, Option.isSome_some, Bool.or_true]

end Scientific

end CostBasis.Binary64
