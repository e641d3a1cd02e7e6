import CostBasis.Proofs.Decimal.TrailingZeros
import CostBasis.Proofs.Text.Digits

/-!
# The text of a decimal is exact

A number in positional notation is a sign, digits, and a point among them.  As long as its digits
make a number of 96 bits and no more than 28 of them stand behind the point, it is read as the
number that it is: no digit is left over that would have to be rounded, and none is out of range.
Every decimal is written in this form, so reading undoes writing.

Main statements: `ofChars_toChars`, `ofText_toText`, `decimal_text_exact`.
-/

namespace CostBasis

open Text (AreDigits areDigits_append areDigits_cons)

/-! ## Positional notation -/

/-- A sign that is written. -/
inductive Sign where
  /-- The sign of a number that is not below zero. -/
  | plus
  /-- The sign of a number below zero. -/
  | minus
deriving DecidableEq

/-- A number in positional notation. -/
structure Positional where
  /-- The sign, if one is written. -/
  sign : Option Sign
  /-- The digits before the point. -/
  whole : List Char
  /-- The digits behind the point, if a point is written. -/
  places : Option (List Char)
  /-- There are only digits. -/
  areDigits : AreDigits (whole ++ places.getD [])
  /-- There is at least one of them. -/
  ne_nil : whole ++ places.getD [] ≠ []

namespace Positional

/-- The digits, as one number. -/
def magnitude (n : Positional) : ℕ := Nat.ofDigitChars 10 (n.whole ++ n.places.getD []) 0

/-- The number of digits behind the point. -/
def scale (n : Positional) : ℕ := (n.places.getD []).length

/-- The digits with the sign, as one number. -/
def coeff (n : Positional) : ℤ := if n.sign = some .minus then -n.magnitude else n.magnitude

/-- The number that is written. -/
def toRat (n : Positional) : ℚ := n.coeff / 10 ^ n.scale

/-- The digits and the point. -/
def magnitudeChars (n : Positional) : List Char :=
  n.whole ++ match n.places with
    | some places => '.' :: places
    | none => []

/-- The characters in the order in which they are written. -/
def toChars (n : Positional) : List Char :=
  match n.sign with
  | some .plus => '+' :: n.magnitudeChars
  | some .minus => '-' :: n.magnitudeChars
  | none => n.magnitudeChars

variable {n : Positional} {c : Char}

/-- The sign does not matter for the magnitude. -/
theorem natAbs_coeff (n : Positional) : n.coeff.natAbs = n.magnitude := by
  unfold coeff
  split <;> simp

/-- There are signs, digits and points, and nothing else; and a sign is there only if it is
written. -/
theorem eq_of_mem_toChars (h : c ∈ n.toChars) :
    c.isDigit = true ∨ c = '.' ∨ (c = '+' ∧ n.sign = some .plus) ∨
      (c = '-' ∧ n.sign = some .minus) := by
  have hmagnitude (hc : c ∈ n.magnitudeChars) : c.isDigit = true ∨ c = '.' := by
    obtain ⟨hwhole, hplaces⟩ := areDigits_append.mp n.areDigits
    rcases List.mem_append.mp hc with hc | hc
    · exact .inl (hwhole c hc)
    · cases h : n.places with
      | none =>
          rw [h] at hc
          exact absurd hc List.not_mem_nil
      | some places =>
          rw [h] at hc hplaces
          rcases List.mem_cons.mp hc with rfl | hc
          · exact .inr rfl
          · exact .inl (hplaces c hc)
  unfold toChars at h
  split at h
  · next hsign =>
      rcases List.mem_cons.mp h with rfl | h
      · exact .inr (.inr (.inl ⟨rfl, hsign⟩))
      · exact (hmagnitude h).imp_right .inl
  · next hsign =>
      rcases List.mem_cons.mp h with rfl | h
      · exact .inr (.inr (.inr ⟨rfl, hsign⟩))
      · exact (hmagnitude h).imp_right .inl
  · exact (hmagnitude h).imp_right .inl

/-- A number in positional notation neither begins nor ends with a blank, so blanks around it can be
told from it. -/
theorem isTrim_toChars (n : Positional) : Text.IsTrim n.toChars := by
  refine Text.isTrim_of_forall fun c hc => ?_
  rcases eq_of_mem_toChars hc with hc | rfl | ⟨rfl, -⟩ | ⟨rfl, -⟩
  · exact Text.isBlank_of_isDigit hc
  · rfl
  · rfl
  · rfl

end Positional

namespace Decimal

variable {s s' : Scan} {cs ds rest : List Char}

/-! ## Reading digits -/

/-- The digits that lead from one state of reading to another one. -/
structure Scan.Takes (s : Scan) (ds : List Char) (s' : Scan) : Prop where
  mantissa : s'.mantissa = Nat.ofDigitChars 10 ds s.mantissa
  places : s'.places = if s.pointSeen then s.places + ds.length else s.places
  pointSeen : s'.pointSeen = s.pointSeen
  digitSeen : s'.digitSeen = (s.digitSeen || !ds.isEmpty)

/-- **Digits are taken up** as long as the number has 96 bits and its places are not full.  The
induction is on the digits; every one of them makes the mantissa larger, so the bound on all of them
is one on each beginning. -/
theorem Scan.exists_takes (h : AreDigits ds)
    (hmantissa : Nat.ofDigitChars 10 ds s.mantissa < coeffBound)
    (hplaces : s.pointSeen = true → s.places + ds.length ≤ maxScale) (rest : List Char) :
    ∃ s', s.run (ds ++ rest) = s'.run rest ∧ s.Takes ds s' := by
  induction ds generalizing s with
  | nil =>
      refine ⟨s, rfl, ⟨rfl, ?_, rfl, ?_⟩⟩
      · rw [List.length_nil, Nat.add_zero, ite_self]
      · rw [List.isEmpty_nil, Bool.not_true, Bool.or_false]
  | cons c ds ih =>
      obtain ⟨hc, hds⟩ := areDigits_cons.mp h
      have hvalue := Text.digitValue?_of_isDigit hc
      rw [Nat.ofDigitChars_cons, mul_comm] at hmantissa
      have hroom := (Text.le_ofDigitChars ds _).trans_lt hmantissa
      rw [List.length_cons] at hplaces
      have hfull : ¬(s.pointSeen = true ∧ s.places = maxScale) := fun hfull => by
        have := hplaces hfull.1
        omega
      have hseparator : c ≠ '_' := by
        rintro rfl
        exact absurd hc (by decide)
      have hpoint : c ≠ '.' := by
        rintro rfl
        exact absurd hc (by decide)
      rw [List.cons_append, Scan.run, dif_neg hfull, if_neg hseparator, if_neg hpoint, hvalue]
      simp only
      rw [dif_pos hroom]
      -- The state with this digit takes up the others.
      obtain ⟨s', hrun, htakes⟩ := ih (s := ⟨s.mantissa * 10 + (c.toNat - '0'.toNat),
        if s.pointSeen then s.places + 1 else s.places, s.pointSeen, true,
        decide (narrowLimit ≤ s.mantissa), hroom, _⟩) hds hmantissa (fun hseen => by
          have := hplaces hseen
          simp only at hseen ⊢
          rw [if_pos hseen]
          omega)
      refine ⟨s', hrun, ?_, ?_, htakes.pointSeen, ?_⟩
      · rw [Nat.ofDigitChars_cons, mul_comm]
        exact htakes.mantissa
      · have hcount := htakes.places
        simp only at hcount
        rw [hcount, List.length_cons]
        split_ifs <;> omega
      · rw [htakes.digitSeen, Bool.true_or, List.isEmpty_cons, Bool.not_false, Bool.or_true]

/-- The end of a number of which a digit has been read. -/
theorem Scan.run_nil (h : s.digitSeen = true) : s.run [] = .ok s := by
  rw [Scan.run, if_pos h]

/-- The first point is passed over. -/
theorem Scan.run_point (h : s.pointSeen = false) (rest : List Char) :
    s.run ('.' :: rest) = { s with pointSeen := true }.run rest := by
  have hfull : ¬(s.pointSeen = true ∧ s.places = maxScale) := by
    rw [h]
    exact fun hfull => Bool.false_ne_true hfull.1
  rw [Scan.run, dif_neg hfull, if_neg (by decide), if_pos rfl, h]
  rfl

variable {n : Positional}

/-- Digits with a point among them are read to the end.  The digits before the point come first,
then the point, and then those behind it, which count as places. -/
theorem Scan.run_magnitudeChars (hmagnitude : n.magnitude < coeffBound)
    (hscale : n.scale ≤ maxScale) :
    ∃ s, Scan.start.run n.magnitudeChars = .ok s ∧ s.mantissa = n.magnitude ∧
      s.places = n.scale := by
  obtain ⟨hwhole, hplaces⟩ := areDigits_append.mp n.areDigits
  unfold Positional.magnitude at hmagnitude ⊢
  rw [Nat.ofDigitChars_append] at hmagnitude ⊢
  obtain ⟨s, hrun, htakes⟩ := Scan.exists_takes (s := .start) hwhole
    ((Text.le_ofDigitChars _ _).trans_lt hmagnitude) (fun h => absurd h Bool.false_ne_true)
    (match n.places with
      | some places => '.' :: places
      | none => [])
  have hpoint : s.pointSeen = false := htakes.pointSeen
  have hzero : s.places = 0 := htakes.places
  have hseen : s.digitSeen = !n.whole.isEmpty := htakes.digitSeen
  rw [Positional.magnitudeChars, hrun]
  have hne := n.ne_nil
  unfold Positional.scale at hscale ⊢
  cases h : n.places with
  | none =>
      rw [h, Option.getD_none, List.append_nil] at hne
      refine ⟨s, Scan.run_nil ?_, htakes.mantissa, hzero⟩
      rw [hseen, Bool.not_eq_true', List.isEmpty_eq_false_iff]
      exact hne
  | some places =>
      rw [h, Option.getD_some] at hmagnitude hscale hplaces hne
      obtain ⟨s', hrun', htakes'⟩ := Scan.exists_takes (s := { s with pointSeen := true })
        hplaces (by rwa [htakes.mantissa]) (fun _ => by rwa [hzero, Nat.zero_add]) []
      rw [List.append_nil] at hrun'
      refine ⟨s', ?_, ?_, ?_⟩
      · rw [Scan.run_point hpoint, hrun', Scan.run_nil]
        rw [htakes'.digitSeen, hseen]
        simpa [imp_iff_not_or] using hne
      · rw [htakes'.mantissa, htakes.mantissa, Option.getD_some]
        rfl
      · rw [htakes'.places, if_pos rfl, hzero, Nat.zero_add, Option.getD_some]

/-- What was read is the number with these digits. -/
theorem Scan.toDecimal_eq {m p : ℕ} (hmantissa : s.mantissa = m) (hplaces : s.places = p)
    (hm : (m : ℤ).natAbs < coeffBound) (hp : p ≤ maxScale) : s.toDecimal = ofParts m p hm hp := by
  subst hmantissa hplaces
  rfl

/-- The negative of a decimal in its parts: the sign of the coefficient changes, and the zeros at
its end stay. -/
theorem neg_ofParts {m : ℤ} {p : ℕ} (hm : m.natAbs < coeffBound) (hp : p ≤ maxScale)
    (hm' : (-m).natAbs < coeffBound) : -ofParts m p hm hp = ofParts (-m) p hm' hp := by
  unfold ofParts
  by_cases h : m = 0
  · subst h
    rfl
  · rw [dif_neg h, dif_neg (neg_ne_zero.mpr h)]
    rfl

/-- **A number in positional notation is read exactly.**  It has no exponent, so the first way of
reading is the only one. -/
theorem ofChars_toChars (hmagnitude : n.magnitude < coeffBound) (hscale : n.scale ≤ maxScale) :
    ofChars n.toChars =
      .ok (ofParts n.coeff n.scale (n.natAbs_coeff ▸ hmagnitude) hscale) := by
  obtain ⟨s, hrun, hmantissa, hplaces⟩ := Scan.run_magnitudeChars hmagnitude hscale
  have hs := Scan.toDecimal_eq hmantissa hplaces (by rwa [Int.natAbs_natCast]) hscale
  have hread : ofPlainChars n.toChars =
      .ok (ofParts n.coeff n.scale (n.natAbs_coeff ▸ hmagnitude) hscale) := by
    unfold Positional.toChars
    cases hsign : n.sign with
    | none =>
        have hcoeff : n.coeff = n.magnitude := by simp [Positional.coeff, hsign]
        simp only [hcoeff]
        -- Neither a digit nor a point is a sign.
        have hhead : ∀ c ∈ n.magnitudeChars, c ≠ '-' ∧ c ≠ '+' := by
          intro c hc
          have hmem : c ∈ n.toChars := by rwa [Positional.toChars, hsign]
          rcases Positional.eq_of_mem_toChars hmem with hc | rfl | ⟨-, hc⟩ | ⟨-, hc⟩
          · constructor
            · rintro rfl
              exact absurd hc (by decide)
            · rintro rfl
              exact absurd hc (by decide)
          · exact ⟨by decide, by decide⟩
          · exact absurd (hsign.symm.trans hc) (Option.some_ne_none _).symm
          · exact absurd (hsign.symm.trans hc) (Option.some_ne_none _).symm
        unfold ofPlainChars
        split
        · next heq =>
            rw [heq] at hrun
            exact absurd hrun (by simp [Scan.run, Scan.start])
        · next heq => exact absurd rfl (hhead '-' (heq ▸ List.mem_cons_self)).1
        · next heq => exact absurd rfl (hhead '+' (heq ▸ List.mem_cons_self)).2
        · rw [hrun, Except.map, hs]
    | some sign =>
        cases sign with
        | plus =>
            have hcoeff : n.coeff = n.magnitude := by simp [Positional.coeff, hsign]
            simp only [hcoeff]
            rw [ofPlainChars, hrun, Except.map, hs]
        | minus =>
            have hcoeff : n.coeff = -n.magnitude := by simp [Positional.coeff, hsign]
            simp only [hcoeff]
            rw [ofPlainChars, hrun, Except.map, hs, neg_ofParts]
  rw [ofChars, hread]

/-! ## Writing -/

/-- The canonical text of a decimal, in its parts. -/
def positional (d : Decimal) : Positional where
  sign := if d.isNegative then some .minus else none
  whole := Text.digits (d.reduce.coeff.natAbs / 10 ^ d.reduce.scale)
  places := if d.reduce.scale = 0 then none
    else some (Text.fixedDigits d.reduce.scale (d.reduce.coeff.natAbs % 10 ^ d.reduce.scale))
  areDigits := by
    refine areDigits_append.mpr ⟨Text.areDigits_digits _, ?_⟩
    split
    · exact List.forall_mem_nil _
    · exact Text.areDigits_fixedDigits _ _
  ne_nil := fun h => Nat.toDigits_ne_nil (List.append_eq_nil_iff.mp h).1

variable (d : Decimal)

/-- As many digits stand behind the point as the reduced decimal has places. -/
theorem scale_positional : d.positional.scale = d.reduce.scale := by
  unfold Positional.scale positional
  simp only
  split
  · next h => rw [h, Option.getD_none, List.length_nil]
  · rw [Option.getD_some, Text.length_fixedDigits]

/-- The digits of the canonical text are those of the reduced coefficient, with a zero before the
point where there is nothing else. -/
theorem magnitude_positional : d.positional.magnitude = d.reduce.coeff.natAbs := by
  unfold Positional.magnitude positional
  simp only
  split
  · next h =>
      rw [Option.getD_none, List.append_nil, Text.digits, Nat.ofDigitChars_ten_toDigits, h,
        pow_zero, Nat.div_one]
  · rw [Option.getD_some, Text.ofDigitChars_append_digits, Text.length_fixedDigits,
      Text.ofDigitChars_fixedDigits, Nat.mod_mod, Text.digits, Nat.ofDigitChars_ten_toDigits,
      Nat.div_add_mod']

/-- The canonical text stands for the reduced coefficient, sign and all. -/
theorem coeff_positional : d.positional.coeff = d.reduce.coeff := by
  have hsign : d.isNegative = decide (d.reduce.coeff < 0) :=
    Same.isNegative (toRat_reduce d).symm
  unfold Positional.coeff
  rw [magnitude_positional]
  unfold positional
  simp only [hsign, decide_eq_true_eq]
  by_cases hneg : d.reduce.coeff < 0
  · rw [if_pos hneg, if_pos rfl]
    omega
  · rw [if_neg hneg, if_neg (Option.some_ne_none _).symm]
    omega

/-- The canonical text is this number in positional notation, so what is known of such numbers is
known of it. -/
theorem toChars_positional : d.positional.toChars = d.toChars := by
  have hmagnitude : d.positional.magnitudeChars = d.reduce.magnitudeChars := by
    unfold Positional.magnitudeChars positional magnitudeChars
    simp only
    split_ifs with h
    · rw [h, pow_zero, Nat.div_one, List.append_nil]
    · rfl
  unfold Positional.toChars toChars
  rw [hmagnitude]
  unfold positional
  simp only
  split_ifs <;> rfl

/-- **Reading undoes writing**: it gives the number with as few places as it needs.
Source: the round trip of `from_str_canonical` and `to_canonical_string`. -/
theorem ofText_toText : ofText d.toText = .ok d.reduce := by
  have hmagnitude : d.positional.magnitude < coeffBound := by
    rw [magnitude_positional]
    exact d.reduce.coeff_lt
  have hscale : d.positional.scale ≤ maxScale := by
    rw [scale_positional]
    exact d.reduce.scale_le
  rw [ofText, toText, String.toList_ofList, ← toChars_positional,
    Text.trimBlanks_eq_self d.positional.isTrim_toChars, ofChars_toChars hmagnitude hscale]
  simp only [coeff_positional, scale_positional]
  refine congrArg Except.ok (eq_of_reduced ?_ d.reduced_reduce ?_)
  · unfold ofParts
    split
    · exact .inl rfl
    · exact d.reduced_reduce
  · rw [Same, toRat_ofParts, toRat_eq_div]

/-- Two decimals have one text exactly if they are the same number. -/
theorem toText_eq_iff {a b : Decimal} : a.toText = b.toText ↔ Same a b := by
  refine ⟨fun h => ?_, Same.toText⟩
  have hread : (.ok a.reduce : Except ReadError Decimal) = .ok b.reduce := by
    rw [← ofText_toText, ← ofText_toText, h]
  exact reduce_eq_iff.mp (Except.ok.inj hread)

end Decimal

/-! ## The canonical text -/

/-- The one text of a number: there is no plus sign, no zero before another digit before the point,
no point without a digit on both sides, no zero at the end of the places, and no minus sign before
zero. -/
structure Positional.IsCanonical (n : Positional) : Prop where
  sign_ne_plus : n.sign ≠ some .plus
  whole_ne_nil : n.whole ≠ []
  leading : ∀ cs, n.whole = '0' :: cs → cs = []
  trailing : ∀ places ∈ n.places, ∃ c ∈ places.getLast?, c ≠ '0'
  sign_of_zero : n.magnitude = 0 → n.sign = none

/-- What is written for a decimal is the one text of its number: no sign but a minus, no zero in
front that is not the only digit there, and no zero at the end behind the point. -/
theorem Decimal.isCanonical_positional (d : Decimal) : d.positional.IsCanonical := by
  refine ⟨?_, Nat.toDigits_ne_nil, fun cs h => (Text.digits_ne_zero_cons h).2, ?_, ?_⟩
  · unfold positional
    simp only
    split <;> simp
  · intro places hplaces
    unfold positional at hplaces
    simp only at hplaces
    split at hplaces
    · exact absurd hplaces (Option.not_mem_none _)
    · next hscale =>
        obtain rfl := Option.mem_some_iff.mp hplaces
        obtain ⟨s, hs⟩ := Nat.exists_eq_succ_of_ne_zero hscale
        rw [hs, Text.fixedDigits, List.getLast?_append_of_ne_nil _ (List.cons_ne_nil _ _)]
        refine ⟨_, rfl, ?_⟩
        -- The last digit is that of the coefficient.
        have hlast := d.reduced_reduce.resolve_left hscale
        rw [List.getLast_singleton, Ne, Nat.digitChar_eq_zero, pow_succ', Nat.mod_mul_right_mod]
        omega
  · intro hzero
    rw [magnitude_positional, Int.natAbs_eq_zero] at hzero
    have hsign : d.isNegative = false := by
      rw [Same.isNegative (toRat_reduce d).symm, isNegative, hzero]
      rfl
    unfold positional
    simp only [hsign]
    rfl

open Decimal in
/-- **The text of a decimal is exact.**  Whatever is written as a sign, digits and a point, with
digits that make a number of 96 bits and at most 28 of them behind the point, and with any blanks
around it, is read as the number that is written.  Reading what was written for a decimal gives the
same number; two decimals are the same number exactly if the same is written for them; and what is
written is the one canonical text of the number, without an exponent.
Source: `from_str_canonical` and `to_canonical_string`. -/
theorem decimal_text_exact {n : Positional} {before after : List Char}
    (hmagnitude : n.magnitude < 2 ^ 96) (hscale : n.scale ≤ 28)
    (hbefore : ∀ c ∈ before, Text.isBlank c = true) (hafter : ∀ c ∈ after, Text.isBlank c = true) :
    (∃ d, ofText (String.ofList (before ++ n.toChars ++ after)) = .ok d ∧ d.toRat = n.toRat) ∧
      (∀ d : Decimal, ∃ d', ofText d.toText = .ok d' ∧ d'.Same d) ∧
      (∀ a b : Decimal, a.Same b ↔ a.toText = b.toText) ∧
      ∀ d : Decimal, ∃ m : Positional, m.IsCanonical ∧ d.toText = String.ofList m.toChars ∧
        ∀ c ∈ d.toText.toList, c.isDigit = true ∨ c = '.' ∨ c = '-' := by
  refine ⟨?_, fun d => ⟨d.reduce, d.ofText_toText, toRat_reduce d⟩,
    fun a b => toText_eq_iff.symm, fun d => ⟨d.positional, d.isCanonical_positional, ?_, ?_⟩⟩
  · refine ⟨_, ?_, toRat_ofParts n.coeff n.scale (n.natAbs_coeff ▸ hmagnitude) hscale⟩
    rw [ofText, String.toList_ofList, Text.trimBlanks_surround n.isTrim_toChars hbefore hafter]
    exact ofChars_toChars hmagnitude hscale
  · rw [toText, toChars_positional]
  · intro c hc
    rw [toText, String.toList_ofList, ← toChars_positional] at hc
    rcases Positional.eq_of_mem_toChars hc with hc | rfl | ⟨-, hplus⟩ | ⟨rfl, -⟩
    · exact .inl hc
    · exact .inr (.inl rfl)
    · exact absurd hplus d.isCanonical_positional.sign_ne_plus
    · exact .inr (.inr rfl)

/-- The largest magnitude there is, with all places, and with zeros before it. -/
def sampleSpelling : Positional where
  sign := some .minus
  whole := ['0', '0', '7']
  places := some (Text.fixedDigits 28 9228162514264337593543950335)
  areDigits := areDigits_append.mpr ⟨by decide, Text.areDigits_fixedDigits _ _⟩
  ne_nil := List.cons_ne_nil _ _

/-- The sample spelling between blanks of several scripts is read as the largest magnitude there is,
which is a whole number over all 28 places. -/
theorem decimal_text_exact_sampleSpelling :
    sampleSpelling.magnitude < 2 ^ 96 ∧ sampleSpelling.scale ≤ 28 ∧
      (∀ c ∈ ['\u3000', '\t'], Text.isBlank c = true) ∧ (∀ c ∈ ['\u0085'], Text.isBlank c = true) ∧
      ∃ d, Decimal.ofText
          (String.ofList (['\u3000', '\t'] ++ sampleSpelling.toChars ++ ['\u0085'])) =
        .ok d ∧ d.toRat = -(2 ^ 96 - 1) / 10 ^ 28 := by
  have hvalue : sampleSpelling.magnitude = 2 ^ 96 - 1 := by decide +kernel
  have hmagnitude : sampleSpelling.magnitude < 2 ^ 96 := hvalue ▸ by decide
  have hscale : sampleSpelling.scale ≤ 28 := (Text.length_fixedDigits _ _).le
  have hbefore : ∀ c ∈ ['\u3000', '\t'], Text.isBlank c = true :=
    List.forall_mem_cons.mpr ⟨rfl, List.forall_mem_singleton.mpr rfl⟩
  have hafter : ∀ c ∈ ['\u0085'], Text.isBlank c = true := List.forall_mem_singleton.mpr rfl
  obtain ⟨⟨d, hread, hd⟩, -⟩ := decimal_text_exact hmagnitude hscale hbefore hafter
  have hcoeff : sampleSpelling.coeff = -(2 ^ 96 - 1) := by
    have hsign : sampleSpelling.sign = some .minus := rfl
    rw [Positional.coeff, if_pos hsign, hvalue]
    norm_num
  have hplaces : sampleSpelling.scale = 28 := Text.length_fixedDigits _ _
  refine ⟨hmagnitude, hscale, hbefore, hafter, d, hread, hd.trans ?_⟩
  rw [Positional.toRat, hcoeff, hplaces]
  norm_num

end CostBasis
