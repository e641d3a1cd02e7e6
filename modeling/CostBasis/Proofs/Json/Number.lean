import CostBasis.Json.Reader
import CostBasis.Proofs.Binary64.Rounding
import CostBasis.Proofs.Text.Digits

/-!
# Numbers that are read back

A number is written as a sign, digits without leading zeros, perhaps a point with more digits, and
perhaps an exponent.  It is read up to its last character, whatever follows that is no part of a
number, and it is taken apart into what it was written from.  A number with few digits behind the
point is read as the binary number nearest to it.

Main statements: `readNumber_toChars`, `ofLiteral_toChars`, `toBinary64?_numeral`.
-/

namespace CostBasis.Json

open Text (AreDigits areDigits_append areDigits_cons)

variable {cs ds rest : List Char}

/-! ## Written numbers -/

/-- A number in the parts that it is written from. -/
structure Literal where
  /-- Whether a minus sign is written. -/
  isNegative : Bool
  /-- The digits before the point. -/
  whole : List Char
  /-- The digits behind the point, if a point is written. -/
  places : Option (List Char)
  /-- The exponent, if one is written. -/
  exponent : Option ℤ
  /-- There are only digits. -/
  areDigits : AreDigits (whole ++ places.getD [])
  /-- There is a digit before the point. -/
  whole_ne_nil : whole ≠ []
  /-- No zero stands before another digit. -/
  leading : ∀ cs, whole = '0' :: cs → cs = []
  /-- There is a digit behind a point. -/
  places_ne_nil : ∀ ds ∈ places, ds ≠ []

namespace Literal

/-- The point and the digits behind it. -/
def placesChars (n : Literal) : List Char :=
  match n.places with
  | some ds => '.' :: ds
  | none => []

/-- The exponent with its sign. -/
def exponentChars (n : Literal) : List Char :=
  match n.exponent with
  | some e => 'e' :: (if e < 0 then '-' else '+') :: Text.digits e.natAbs
  | none => []

/-- The number as it is written. -/
def toChars (n : Literal) : List Char :=
  (if n.isNegative then ['-'] else []) ++ n.whole ++ n.placesChars ++ n.exponentChars

end Literal

/-- What follows is no part of a number. -/
def EndsNumber (rest : List Char) : Prop :=
  ∀ c ∈ rest.head?, c.isDigit = false ∧ c ≠ '.' ∧ c ≠ 'e' ∧ c ≠ 'E'

/-- The end of the text ends a number. -/
theorem endsNumber_nil : EndsNumber [] := fun c hc => absurd hc (Option.not_mem_none c)

/-! ## Reading the parts -/

/-- The digits of JSON are those of ASCII. -/
theorem isDigit_eq (c : Char) : isDigit c = c.isDigit := Text.isSome_digitValue?

/-- Digits are told from what follows them, which begins with none. -/
theorem span_digits {p : Char → Bool} (hp : ∀ c, p c = c.isDigit) (hds : AreDigits ds)
    (hrest : ∀ c ∈ rest.head?, c.isDigit = false) : (ds ++ rest).span p = (ds, rest) := by
  have hall : ∀ c ∈ ds, p c = true := fun c hc => (hp c).trans (hds c hc)
  have hstop : ∀ c ∈ rest.head?, p c = false := fun c hc => (hp c).trans (hrest c hc)
  rw [List.span_eq_takeWhile_dropWhile, List.takeWhile_append_of_pos hall,
    Text.dropWhile_append_of_forall hall, Text.dropWhile_of_head hstop]
  cases rest with
  | nil => rw [List.takeWhile_nil, List.append_nil]
  | cons c rest =>
      rw [List.takeWhile_cons_of_neg (by rw [hstop c rfl]; exact Bool.false_ne_true),
        List.append_nil]

/-- Digits are read up to what follows them. -/
theorem readDigits_append (hds : AreDigits ds) (hne : ds ≠ [])
    (hrest : ∀ c ∈ rest.head?, c.isDigit = false) : readDigits (ds ++ rest) = some (ds, rest) := by
  rw [readDigits, span_digits isDigit_eq hds hrest]
  cases ds with
  | nil => exact absurd rfl hne
  | cons d ds => rfl

variable (n : Literal)

/-- An exponent begins with no digit and no point. -/
theorem head?_exponentChars (hrest : EndsNumber rest) :
    ∀ c ∈ (n.exponentChars ++ rest).head?, c.isDigit = false ∧ c ≠ '.' := by
  unfold Literal.exponentChars
  split
  · rintro c ⟨rfl⟩
    decide
  · exact fun c hc => ⟨(hrest c hc).1, (hrest c hc).2.1⟩

/-- Neither does what stands behind the digits before the point begin with a digit. -/
theorem head?_placesChars (hrest : EndsNumber rest) :
    ∀ c ∈ (n.placesChars ++ (n.exponentChars ++ rest)).head?, c.isDigit = false := by
  unfold Literal.placesChars
  split
  · rintro c ⟨rfl⟩
    decide
  · exact fun c hc => (head?_exponentChars n hrest c hc).1

/-- The digits before the point are read: a zero alone, or a number that does not begin with one.
That a zero is followed by no digit is a part of being written as a number. -/
theorem readWhole_append (hrest : ∀ c ∈ rest.head?, c.isDigit = false) :
    readWhole (n.whole ++ rest) = some (n.whole, rest) := by
  have hdigits := (areDigits_append.mp n.areDigits).1
  cases h : n.whole with
  | nil => exact absurd h n.whole_ne_nil
  | cons c cs =>
      by_cases hzero : c = '0'
      · subst hzero
        rw [n.leading cs h]
        rfl
      · rw [h] at hdigits
        rw [List.cons_append, readWhole, ← List.cons_append,
          readDigits_append hdigits (List.cons_ne_nil _ _) hrest]
        exact fun cs' heq => hzero (List.cons.inj heq).1

/-- The point and the digits behind it are read, if they are there; if not, what follows is an
exponent or the end of the number, and nothing is read. -/
theorem readFraction_append (hrest : EndsNumber rest) :
    readFraction (n.placesChars ++ (n.exponentChars ++ rest)) =
      some (n.placesChars, n.exponentChars ++ rest) := by
  have hhead := head?_exponentChars n hrest
  have hdigits := (areDigits_append.mp n.areDigits).2
  unfold Literal.placesChars
  cases h : n.places with
  | some ds =>
      rw [h, Option.getD_some] at hdigits
      rw [List.cons_append, readFraction, readDigits_append hdigits (n.places_ne_nil ds h)
        fun c hc => (hhead c hc).1]
      rfl
  | none =>
      simp only [List.nil_append]
      unfold readFraction
      split
      · next heq =>
          rw [heq] at hhead
          exact absurd rfl (hhead '.' rfl).2
      · rfl

/-- The exponent is read with its sign, if there is one; if not, what follows ends the number. -/
theorem readExponent_append (hrest : EndsNumber rest) :
    readExponent (n.exponentChars ++ rest) = some (n.exponentChars, rest) := by
  have hdigits (e : ℤ) : readDigits (Text.digits e.natAbs ++ rest) =
      some (Text.digits e.natAbs, rest) :=
    readDigits_append (Text.areDigits_digits _) Nat.toDigits_ne_nil fun c hc => (hrest c hc).1
  unfold Literal.exponentChars
  cases n.exponent with
  | some e =>
      simp only [List.cons_append]
      unfold readExponent
      split_ifs with hsign
      · simp only [true_or, if_true, hdigits, Option.map_some]
      · simp only [true_or, if_true, hdigits, Option.map_some]
  | none =>
      cases rest with
      | nil => rfl
      | cons c rest =>
          have hc := (hrest c rfl).2.2
          unfold readExponent
          simp only [List.nil_append]
          rw [if_neg (not_or.mpr hc)]

/-- No digit is a minus sign, so the sign is told from the number by its first character. -/
theorem Literal.whole_append_ne (cs : List Char) : ∀ ds, n.whole ++ cs ≠ '-' :: ds := by
  intro ds h
  have hdigits := (areDigits_append.mp n.areDigits).1
  cases hcons : n.whole with
  | nil => exact n.whole_ne_nil hcons
  | cons c whole =>
      rw [hcons] at h hdigits
      obtain ⟨rfl, -⟩ := List.cons.inj h
      exact absurd (hdigits '-' List.mem_cons_self) (by decide)

/-- **A number is read up to its end**, part by part: its sign, the digits before the point, those
behind it, and the exponent. -/
theorem readNumber_toChars (hrest : EndsNumber rest) :
    readNumber (n.toChars ++ rest) = some (n.toChars, rest) := by
  have hwhole := readWhole_append n (head?_placesChars n hrest)
  have hfraction := readFraction_append n hrest
  have hexponent := readExponent_append n hrest
  have hminus := n.whole_append_ne (n.placesChars ++ (n.exponentChars ++ rest))
  unfold readNumber Literal.toChars
  cases n.isNegative with
  | true =>
      simp only [if_true, List.append_assoc, List.cons_append, List.nil_append, hwhole, hfraction,
        hexponent, Option.bind_eq_bind, Option.bind_some, Option.pure_def]
  | false =>
      simp only [Bool.false_eq_true, if_false, List.append_assoc, List.nil_append, hwhole,
        hfraction,
        hexponent, Option.bind_eq_bind, Option.bind_some, Option.pure_def]

/-! ## Taking a number apart -/

namespace Literal

/-- The parts, as they are found again. -/
def numeral : Numeral := ⟨n.isNegative, n.whole, n.places.getD [], n.exponent⟩

/-- The digits, as one number. -/
def magnitude : ℕ := ofDigits (n.whole ++ n.places.getD [])

/-- The power of ten of the last digit. -/
def lowest : ℤ := n.exponent.getD 0 - (n.places.getD []).length

/-- The digits behind a point, and what follows them. -/
def splitPlaces : List Char → List Char × List Char
  | '.' :: cs => cs.span fun c => (Text.digitValue? c).isSome
  | cs => ([], cs)

/-- The number behind the mark of an exponent. -/
def exponentOf? : List Char → Option ℤ
  | [] => none
  | _ :: '-' :: cs => some (-(ofDigits cs : ℤ))
  | _ :: '+' :: cs => some (ofDigits cs)
  | _ :: cs => some (ofDigits cs)

/-- The parts behind the sign. -/
def ofUnsigned (isNegative : Bool) (cs : List Char) : Numeral :=
  let parts := cs.span fun c => (Text.digitValue? c).isSome
  ⟨isNegative, parts.1, (splitPlaces parts.2).1, exponentOf? (splitPlaces parts.2).2⟩

/-- A minus sign is taken off the parts. -/
theorem ofLiteral_minus (cs : List Char) : Numeral.ofLiteral ('-' :: cs) = ofUnsigned true cs := rfl

/-- Without a minus sign there are only the other parts, and the number is not a negative one. -/
theorem ofLiteral_of_ne {cs : List Char} (h : ∀ ds, cs ≠ '-' :: ds) :
    Numeral.ofLiteral cs = ofUnsigned false cs := by
  unfold Numeral.ofLiteral
  split
  next hsign =>
    split at hsign
    · exact absurd rfl (h _)
    · cases hsign
      rfl

/-- Digits are told from what follows them by whether they have a value. -/
theorem span_isSome (hds : AreDigits ds) (hrest : ∀ c ∈ rest.head?, c.isDigit = false) :
    (ds ++ rest).span (fun c => (Text.digitValue? c).isSome) = (ds, rest) :=
  span_digits (fun _ => Text.isSome_digitValue?) hds hrest

/-- The digits behind the point are found again, and the exponent is left; without a point nothing
is taken off. -/
theorem splitPlaces_append :
    splitPlaces (n.placesChars ++ n.exponentChars) = (n.places.getD [], n.exponentChars) := by
  have hplaces := (areDigits_append.mp n.areDigits).2
  have hhead := head?_exponentChars n endsNumber_nil
  rw [List.append_nil] at hhead
  unfold placesChars
  cases h : n.places with
  | some ds =>
      rw [h, Option.getD_some] at hplaces
      exact span_isSome hplaces fun c hc => (hhead c hc).1
  | none =>
      unfold splitPlaces
      split
      · next heq =>
          rw [List.nil_append] at heq
          rw [heq] at hhead
          exact absurd rfl (hhead '.' rfl).2
      · rfl

/-- The exponent is found again, with its sign, whichever of the two letters and signs was
written. -/
theorem exponentOf?_exponentChars : exponentOf? n.exponentChars = n.exponent := by
  unfold exponentChars
  cases n.exponent with
  | none => rfl
  | some e =>
      have hvalue : (ofDigits (Text.digits e.natAbs) : ℤ) = e.natAbs := by
        rw [ofDigits, Text.digits, Nat.ofDigitChars_ten_toDigits]
      by_cases he : e < 0
      · simp only [if_pos he, exponentOf?, hvalue]
        exact congrArg some (by omega)
      · simp only [if_neg he, exponentOf?, hvalue]
        exact congrArg some (by omega)

/-- **A number is taken apart into what it was written from**: its sign, the digits on both sides of
the point, and the exponent. -/
theorem ofLiteral_toChars : Numeral.ofLiteral n.toChars = n.numeral := by
  have hwhole := (areDigits_append.mp n.areDigits).1
  have hhead := head?_placesChars n endsNumber_nil
  rw [List.append_nil] at hhead
  have hparts (isNegative : Bool) :
      ofUnsigned isNegative (n.whole ++ (n.placesChars ++ n.exponentChars)) =
        ⟨isNegative, n.whole, n.places.getD [], n.exponent⟩ := by
    simp only [ofUnsigned, span_isSome hwhole hhead, splitPlaces_append, exponentOf?_exponentChars]
  unfold toChars numeral
  rw [List.append_assoc, List.append_assoc]
  cases n.isNegative with
  | true => exact (ofLiteral_minus _).trans (hparts true)
  | false => exact (ofLiteral_of_ne (n.whole_append_ne _)).trans (hparts false)

/-- Digits are taken up as long as the number has 64 bits, and then none is left. -/
theorem takeUp_digits {acc : ℕ} (hcs : AreDigits cs)
    (hlt : Nat.ofDigitChars 10 cs acc < UInt64.size) :
    Numeral.takeUp acc cs = (Nat.ofDigitChars 10 cs acc, []) := by
  induction cs generalizing acc with
  | nil => rw [Numeral.takeUp, Nat.ofDigitChars_nil]
  | cons c cs ih =>
      obtain ⟨hc, hcs⟩ := areDigits_cons.mp hcs
      rw [Nat.ofDigitChars_cons, mul_comm] at hlt ⊢
      have hroom := (Text.le_ofDigitChars cs _).trans_lt hlt
      rw [Numeral.takeUp, Text.digitValue?_of_isDigit hc, Option.getD_some]
      simp only [if_pos hroom]
      exact ih hcs hlt

/-- No digit of a number of 64 bits is dropped, so what is converted is the number as it was
written. -/
theorem leading_numeral (hlt : n.magnitude < UInt64.size) :
    n.numeral.leading = (n.magnitude, n.lowest) := by
  obtain ⟨hwhole, hplaces⟩ := areDigits_append.mp n.areDigits
  unfold magnitude ofDigits at hlt ⊢
  rw [Nat.ofDigitChars_append] at hlt ⊢
  have hhead := takeUp_digits hwhole ((Text.le_ofDigitChars _ _).trans_lt hlt)
  have htail := takeUp_digits hplaces hlt
  unfold Numeral.leading numeral lowest
  simp only [hhead, htail, List.length_nil, Nat.sub_zero, Nat.cast_zero, add_zero]

/-- **A number with few places is read as the binary number nearest to it**, if its digits need not
be rounded.  The power of ten is exact as well, and so the division is the only rounding. -/
theorem toBinary64?_numeral {k : ℕ} (hlt : n.magnitude < UInt64.size)
    (hexact : Binary64.round n.magnitude = n.magnitude) (hlowest : n.lowest = -(k : ℤ))
    (hpos : 0 < k) (hk : k ≤ 22) :
    n.numeral.toBinary64? = some (Binary64.round (n.magnitude / 10 ^ k)) := by
  have hneg : -(k : ℤ) < 0 := by omega
  have hsteps : (k - 1) / 308 = 0 := Nat.div_eq_of_lt (by omega)
  have hten : Numeral.tenPow k = 10 ^ k := by
    rw [Numeral.tenPow, Binary64.tenPow_eq, zpow_natCast, Binary64.round_ten_pow hk]
  unfold Numeral.toBinary64?
  rw [leading_numeral n hlt]
  simp only [hlowest, hexact, if_pos hneg, Int.natAbs_neg, Int.natAbs_natCast]
  unfold Numeral.divideByTenPow
  simp only [hsteps, Nat.zero_min, Nat.mul_zero, Nat.sub_zero, hten]
  rfl

end Literal

end CostBasis.Json
