import CostBasis.Json.Records
import CostBasis.Proofs.Binary64.OfDecimal
import CostBasis.Proofs.Binary64.Text

/-!
# Decimals through JSON

In JSON a decimal is a number of binary floating point, written with the shortest digits that are
rounded to it.  A decimal of fifteen digits is found again in these digits.  One of more digits need
not be, and it makes no difference whether the further digits are zeros.

Main statements: `exists_literal`, `IsShort.toBinary64?_literal`, `IsShort.ofBinary64_round`,
`FitsJson.survivesJson`.
-/

namespace CostBasis

open Json (Literal Numeral)

variable {x : ℚ} {m scale : ℕ} {isNegative : Bool}

/-- Zero, as it is written among the numbers of binary floating point. -/
def Json.Literal.zero (isNegative : Bool) : Literal where
  isNegative := isNegative
  whole := ['0']
  places := some ['0']
  exponent := none
  areDigits := Text.areDigits_replicate 2
  whole_ne_nil := List.cons_ne_nil _ _
  leading _ h := (List.cons.inj h).2.symm
  places_ne_nil _ h := Option.some.inj h ▸ List.cons_ne_nil _ _

/-! ## Writing -/

namespace Decimal

variable {d : Decimal}

/-- What is zero as a binary number is written as zero, with the sign of the decimal. -/
theorem toJson_of_zero (h : d.magnitudeToBinary64 = 0) :
    d.toJson = .number (Literal.zero d.isNegative).toChars := by
  rw [toJson, toJsonNumber, String.toList_ofList, h]
  cases d.isNegative <;> rfl

/-- Any other decimal is written with the shortest digits of its binary number. -/
theorem toJson_of_ne (h : d.magnitudeToBinary64 ≠ 0)
    (hs : (Binary64.shortest d.magnitudeToBinary64).mantissa ≠ 0) :
    d.toJson = .number
      ((Binary64.shortest d.magnitudeToBinary64).literal hs d.isNegative).toChars := by
  rw [toJson, toJsonNumber, String.toList_ofList, Binary64.toChars_literal h]
  cases d.isNegative <;> rfl

/-- **Every decimal** is written as a number. -/
theorem exists_literal (d : Decimal) : ∃ n : Literal, d.toJson = .number n.toChars := by
  by_cases h : d.magnitudeToBinary64 = 0
  · exact ⟨_, toJson_of_zero h⟩
  · have hpos := lt_of_le_of_ne d.magnitudeToBinary64_nonneg (Ne.symm h)
    exact ⟨_, toJson_of_ne h (Binary64.mantissa_shortest_ne_zero hpos)⟩

end Decimal

/-! ## Fifteen digits -/

namespace Binary64

/-- The digits as a whole number over a power of ten. -/
theorem Scientific.toRat_eq_div (s : Scientific) :
    s.toRat = (s.mantissa * 10 ^ s.lowest.toNat : ℕ) / 10 ^ (-s.lowest).toNat := by
  rw [Scientific.toRat, eq_div_iff (by positivity), mul_assoc, ← zpow_natCast,
    ← zpow_add₀ (by norm_num), show s.lowest + ((-s.lowest).toNat : ℤ) = s.lowest.toNat by omega,
    zpow_natCast]
  norm_cast

namespace IsShort

/-- The shortest digits make no larger number than the given ones, and have no more places.  So a
decimal has room for them. -/
theorem mantissa_le (h : IsShort x m scale) :
    (shortest (round x)).mantissa * 10 ^ (shortest (round x)).lowest.toNat ≤ m ∧
      (-(shortest (round x)).lowest).toNat ≤ scale := by
  obtain ⟨d, hlowest, hmantissa⟩ := h.exists_shift
  refine ⟨?_, by omega⟩
  calc (shortest (round x)).mantissa * 10 ^ (shortest (round x)).lowest.toNat
    _ ≤ (shortest (round x)).mantissa * 10 ^ d := by
        gcongr
        · norm_num
        · omega
    _ = m := hmantissa

/-- The shortest digits are not all zeros. -/
theorem mantissa_ne_zero (h : IsShort x m scale) : (shortest (round x)).mantissa ≠ 0 :=
  mantissa_shortest_ne_zero (round_pos h.isNormal)

/-- The number is too small for an exponent behind its digits, unless it is a negative one. -/
theorem exponent_lt (h : IsShort x m scale) : (shortest (round x)).exponent < 16 := by
  obtain ⟨d, hlowest, hmantissa⟩ := h.exists_shift
  have hlow := (pow_digitCount h.mantissa_ne_zero).1
  have hpos := digitCount_pos (shortest (round x)).mantissa
  unfold Scientific.lowest at hlowest
  generalize shortest (round x) = s at *
  have hlt : 10 ^ (digitCount s.mantissa - 1 + d) < 10 ^ 15 := by
    calc 10 ^ (digitCount s.mantissa - 1 + d) = 10 ^ (digitCount s.mantissa - 1) * 10 ^ d :=
          pow_add _ _ _
      _ ≤ s.mantissa * 10 ^ d := Nat.mul_le_mul_right _ hlow
      _ = m := hmantissa
      _ < 10 ^ 15 := h.lt
  have := (Nat.pow_lt_pow_iff_right (by decide : 1 < 10)).mp hlt
  omega

/-- **What is written is read as the same binary number.**  The digits are a number of 53 binary
digits over a power of ten that is exact, so one rounded division reads them. -/
theorem toBinary64?_literal (h : IsShort x m scale) (isNegative : Bool) :
    ((shortest (round x)).literal h.mantissa_ne_zero isNegative).numeral.toBinary64? =
      some (round x) := by
  obtain ⟨hle, hplaces⟩ := h.mantissa_le
  have hvalue := h.toRat_shortest.1
  rw [Scientific.toRat_eq_div] at hvalue
  have hlt := h.lt
  have hscale := h.scale_le
  have hsize : UInt64.size = 18446744073709551616 := rfl
  rcases Scientific.magnitude_literal isNegative h.mantissa_ne_zero h.exponent_lt with
    ⟨hmagnitude, hlowest, hneg⟩ | ⟨hmagnitude, hlowest, hnonneg⟩
  · generalize (shortest (round x)).literal h.mantissa_ne_zero isNegative = n at *
    generalize shortest (round x) = s at *
    rw [Int.toNat_of_nonpos hneg.le, pow_zero, mul_one] at hvalue hle
    rw [Literal.toBinary64?_numeral n (k := (-s.lowest).toNat) (by omega)
      (round_natCast (by omega)) (by omega) (by omega) (by omega), hmagnitude, hvalue]
  · generalize (shortest (round x)).literal h.mantissa_ne_zero isNegative = n at *
    generalize shortest (round x) = s at *
    rw [Int.toNat_of_nonpos (by omega : -s.lowest ≤ 0), pow_zero, div_one] at hvalue
    generalize s.mantissa * 10 ^ s.lowest.toNat = whole at *
    -- One digit more is no longer below the 53 binary digits, but its last one is a zero.
    have hexact : round n.magnitude = n.magnitude := by
      have heven : (n.magnitude : ℚ) = (whole * 5 : ℕ) * 2 ^ (1 : ℤ) := by
        rw [hmagnitude]
        push_cast
        ring
      rw [heven]
      exact round_eq_self (by omega) (by decide)
    rw [Literal.toBinary64?_numeral n (k := 1) (by omega) hexact hlowest (by decide) (by decide),
      hmagnitude, Nat.cast_mul, Nat.cast_ofNat, pow_one, mul_div_cancel_right₀ _ (by norm_num),
      hvalue]

/-- **The decimal of the binary number** is the number that was rounded to it: its shortest digits
are those of the number, and a decimal has room for them. -/
theorem ofBinary64_round (h : IsShort x m scale) (isNegative : Bool) :
    ∃ d, Decimal.ofBinary64 isNegative (round x) = .ok d ∧
      d.toRat = if isNegative then -x else x := by
  obtain ⟨hle, hplaces⟩ := h.mantissa_le
  have hvalue := h.toRat_shortest.1
  rw [Scientific.toRat_eq_div] at hvalue
  have hlt := h.lt
  have hscale := h.scale_le
  have hplain : toPlain (round x) = (shortest (round x)).toPlain :=
    if_neg (round_pos h.isNormal).ne'
  generalize shortest (round x) = s at *
  let n := s.positional (if isNegative then some .minus else none)
  have hmagnitude : n.magnitude = s.mantissa * 10 ^ s.lowest.toNat := s.ofDigitChars_whole_places.1
  have hcount : n.scale = (-s.lowest).toNat := s.ofDigitChars_whole_places.2
  have hchars : (if isNegative then '-' :: s.toPlain else s.toPlain) = n.toChars := by
    rw [← Scientific.magnitudeChars_positional s (if isNegative then some .minus else none)]
    cases isNegative <;> rfl
  have hbound : n.magnitude < Decimal.coeffBound := by
    show n.magnitude < 79228162514264337593543950336
    omega
  have hfew : n.scale ≤ Decimal.maxScale := by
    show n.scale ≤ 28
    omega
  refine ⟨_, ?_, (Decimal.toRat_ofParts n.coeff n.scale (n.natAbs_coeff ▸ hbound) hfew).trans ?_⟩
  · unfold Decimal.ofBinary64
    simp only [hplain, hchars]
    exact Decimal.ofChars_toChars hbound hfew
  · rw [← hvalue, ← hmagnitude, ← hcount]
    cases isNegative with
    | true =>
        have hcoeff : n.coeff = -n.magnitude := rfl
        rw [hcoeff, Int.cast_neg, Int.cast_natCast, neg_div]
        rfl
    | false =>
        have hcoeff : n.coeff = n.magnitude := rfl
        rw [hcoeff, Int.cast_natCast]
        rfl

end IsShort

end Binary64

/-! ## Reading -/

namespace Decimal

variable {d d' : Decimal}

/-- The number is found again in what JSON has of it. -/
def SurvivesJson (d : Decimal) : Prop := ∃ d', ofJson? d.toJson = some d' ∧ d'.Same d

/-- A decimal of fifteen digits, zeros at its end included, of which 22 are places at most; or a
whole number of fifteen digits, with any number of zeros behind the point. -/
def FitsJson (d : Decimal) : Prop :=
  (d.coeff.natAbs < 10 ^ 15 ∧ d.scale ≤ 22) ∨
    (d.coeff.natAbs % 10 ^ d.scale = 0 ∧ d.coeff.natAbs / 10 ^ d.scale < 10 ^ 15)

instance (d : Decimal) : Decidable d.FitsJson := inferInstanceAs (Decidable (_ ∨ _))

/-- A number that is not written as an integer is read by way of binary floating point.
Source: the deserialization of `Decimal`. -/
theorem ofJson?_number {n : Literal} {v : ℚ} (hint : n.numeral.toInt? = none)
    (hv : n.numeral.toBinary64? = some v) (hd : ofBinary64 n.isNegative v = .ok d) :
    ofJson? (.number n.toChars) = some d := by
  have hnone : (n.numeral.toInt?.filter fun i =>
      Int64.minValue.toInt ≤ i && i < UInt64.size) = none := by
    rw [hint, Option.filter_none]
  rw [ofJson?, Literal.ofLiteral_toChars, ofNumeral?, hnone, hv, Option.bind_some,
    show n.numeral.isNegative = n.isNegative from rfl, hd]
  rfl

/-- A decimal that fits is a zero or has fifteen digits.  The digits are those of its coefficient,
with the zeros at its end. -/
theorem FitsJson.cases (h : d.FitsJson) : d.magnitudeToBinary64 = Binary64.round |d.toRat| ∧
    (d.coeff = 0 ∨ ∃ m scale, Binary64.IsShort |d.toRat| m scale) := by
  have hzero (hd : d.coeff ≠ 0) : d.coeff.natAbs ≠ 0 := Int.natAbs_ne_zero.mpr hd
  rcases h with ⟨hcoeff, hscale⟩ | ⟨hwhole, hlt⟩
  · refine ⟨magnitudeToBinary64_eq hcoeff hscale, or_iff_not_imp_left.mpr fun hd =>
      ⟨d.coeff.natAbs, d.scale, ?_, hzero hd, hcoeff, hscale⟩⟩
    rw [toRat_eq_div, abs_div, abs_of_pos d.pow_scale_pos, ← Int.cast_abs, Int.abs_eq_natAbs]
    rfl
  · refine ⟨magnitudeToBinary64_of_whole hwhole, or_iff_not_imp_left.mpr fun hd =>
      ⟨d.coeff.natAbs / 10 ^ d.scale, 0, ?_, fun h => hzero hd ?_, hlt, Nat.zero_le _⟩⟩
    · rw [abs_toRat_eq, hwhole, Nat.cast_zero, zero_div, add_zero, pow_zero, div_one]
    · rw [← Nat.div_add_mod d.coeff.natAbs (10 ^ d.scale), h, hwhole, mul_zero]

/-- **A decimal of fifteen digits survives.**  It is written as the binary number nearest to it, and
read by way of the shortest digits of that number.
Source: the round trip of `Decimal` through JSON, in the test of the serialization of a trade. -/
theorem FitsJson.survivesJson (h : d.FitsJson) : d.SurvivesJson := by
  obtain ⟨hbinary, hzero | ⟨m, scale, hshort⟩⟩ := h.cases
  · obtain rfl : d = zero := by
      have hscale := d.scale_of_zero hzero
      cases d
      cases hzero
      cases hscale
      rfl
    exact ⟨zero, by decide +kernel, rfl⟩
  · obtain ⟨d', hread, hvalue⟩ := hshort.ofBinary64_round d.isNegative
    have hpos := Binary64.round_pos hshort.isNormal
    refine ⟨d', ?_, hvalue.trans ?_⟩
    · have hs := hshort.mantissa_ne_zero
      rw [← hbinary] at hs hpos
      rw [toJson_of_ne hpos.ne' hs]
      refine ofJson?_number (Binary64.Scientific.toInt?_literal hs) ?_ hread
      have hv := hshort.toBinary64?_literal d.isNegative
      simp only [← hbinary] at hv
      rw [hv, hbinary]
    · by_cases hneg : d.isNegative = true
      · rw [if_pos hneg, abs_of_neg ((isNegative_iff d).mp hneg), neg_neg]
      · rw [if_neg hneg, abs_of_nonneg (not_lt.mp fun hlt => hneg ((isNegative_iff d).mpr hlt))]

end Decimal

end CostBasis
