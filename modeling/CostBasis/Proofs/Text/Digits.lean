import CostBasis.Text.Basic
import Mathlib

/-!
# Digits that are read back

The number that digits stand for is `Nat.ofDigitChars 10`.  This says it of the digits that are
written: in as many places as a number needs, or in a fixed number of places.  An integer is read
back from its text, up to the limit of the reader.

None of the characters of a number is blank, so cutting off blanks leaves a number as it is.

Main statements: `ofDigitChars_fixedDigits`, `readUnsigned_digits`, `readSigned_integer`,
`trimBlanks_surround`.
-/

namespace CostBasis.Text

variable {c : Char} {cs ds : List Char} {n width : ℕ}

/-! ## The value of a digit -/

/-- All characters are digits. -/
def AreDigits (cs : List Char) : Prop := ∀ c ∈ cs, c.isDigit = true

instance (cs : List Char) : Decidable (AreDigits cs) :=
  decidable_of_iff (cs.all Char.isDigit = true) List.all_eq_true

/-- The value of a digit is its distance from zero. -/
theorem digitValue?_of_isDigit (h : c.isDigit = true) :
    digitValue? c = some (c.toNat - '0'.toNat) := by
  rw [Char.isDigit, Bool.and_eq_true, decide_eq_true_iff, decide_eq_true_iff] at h
  exact if_pos h

/-- The characters with a value are the digits of ASCII, and no digits of other scripts. -/
theorem isSome_digitValue? : (digitValue? c).isSome = c.isDigit := by
  cases h : c.isDigit with
  | true => rw [digitValue?_of_isDigit h, Option.isSome_some]
  | false =>
      have hout : ¬('0' ≤ c ∧ c ≤ '9') := by
        rintro ⟨hlow, hhigh⟩
        rw [Char.isDigit, Bool.and_eq_false_iff, decide_eq_false_iff_not,
          decide_eq_false_iff_not] at h
        exact h.elim (· hlow) (· hhigh)
      rw [digitValue?, if_neg hout, Option.isSome_none]

/-- What is no digit is different from each digit. -/
theorem AreDigits.not_mem (h : AreDigits cs) (hc : c.isDigit = false) : c ∉ cs := fun hmem =>
  Bool.false_ne_true (hc.symm.trans (h c hmem))

/-- Digits are a digit and more digits. -/
theorem areDigits_cons : AreDigits (c :: cs) ↔ c.isDigit = true ∧ AreDigits cs :=
  List.forall_mem_cons

/-- Digits behind digits are digits. -/
theorem areDigits_append : AreDigits (cs ++ ds) ↔ AreDigits cs ∧ AreDigits ds :=
  List.forall_mem_append

/-- The visible characters of ASCII are not blank. -/
theorem isBlank_of_visible (hlow : 33 ≤ c.toNat) (hhigh : c.toNat ≤ 126) : isBlank c = false := by
  rw [Bool.eq_false_iff]
  simp only [isBlank, ne_eq, Bool.or_eq_true, Bool.and_eq_true, decide_eq_true_eq, beq_iff_eq]
  omega

/-- Nothing between two digits is blank. -/
theorem isBlank_of_isDigit (h : c.isDigit = true) : isBlank c = false := by
  rw [Char.isDigit, Bool.and_eq_true, decide_eq_true_iff, decide_eq_true_iff] at h
  have hlow : 48 ≤ c.toNat := h.1
  have hhigh : c.toNat ≤ 57 := h.2
  exact isBlank_of_visible (by omega) (by omega)

/-! ## Written digits -/

/-- A number is written in digits. -/
theorem areDigits_digits (n : ℕ) : AreDigits (digits n) := fun _ h =>
  Nat.isDigit_of_mem_toDigits (by decide) (by decide) h

/-- A number of fixed width is written in digits, also where zeros fill it up. -/
theorem areDigits_fixedDigits (width n : ℕ) : AreDigits (fixedDigits width n) := by
  induction width generalizing n with
  | zero => exact List.forall_mem_nil _
  | succ width ih =>
      rw [fixedDigits, areDigits_append]
      refine ⟨ih _, List.forall_mem_singleton.mpr ?_⟩
      rw [Nat.isDigit_digitChar, decide_eq_true_iff]
      exact Nat.mod_lt n (by decide)

/-- Zeros are digits. -/
theorem areDigits_replicate (n : ℕ) : AreDigits (List.replicate n '0') := fun _ hc =>
  (List.eq_of_mem_replicate hc).symm ▸ rfl

/-- The last digit stands for the rest by ten. -/
theorem ofDigitChars_concat_digitChar (cs : List Char) (h : n < 10) (init : ℕ) :
    Nat.ofDigitChars 10 (cs ++ [Nat.digitChar n]) init = 10 * Nat.ofDigitChars 10 cs init + n := by
  rw [Nat.ofDigitChars_append, Nat.ofDigitChars_cons_digitChar_of_lt_ten h, Nat.ofDigitChars_nil]

/-- A fixed number of places has room for the last digits. -/
theorem ofDigitChars_fixedDigits (width n : ℕ) :
    Nat.ofDigitChars 10 (fixedDigits width n) 0 = n % 10 ^ width := by
  induction width generalizing n with
  | zero => rw [fixedDigits, Nat.ofDigitChars_nil, pow_zero, Nat.mod_one]
  | succ width ih =>
      rw [fixedDigits, ofDigitChars_concat_digitChar _ (Nat.mod_lt n (by decide)), ih,
        pow_succ', Nat.mod_mul, add_comm]

/-- Digits behind digits: those before count for as many places more. -/
theorem ofDigitChars_append_digits (cs ds : List Char) :
    Nat.ofDigitChars 10 (cs ++ ds) 0 =
      Nat.ofDigitChars 10 cs 0 * 10 ^ ds.length + Nat.ofDigitChars 10 ds 0 := by
  rw [Nat.ofDigitChars_append, Nat.ofDigitChars_eq_ofDigitChars_zero, mul_comm]

/-- What digits stand for only grows with each further digit. -/
theorem le_ofDigitChars (cs : List Char) (init : ℕ) : init ≤ Nat.ofDigitChars 10 cs init := by
  rw [Nat.ofDigitChars_eq_ofDigitChars_zero]
  exact (Nat.le_mul_of_pos_left init (by positivity)).trans (Nat.le_add_right _ _)

/-- So many digits stand for less than the power of ten with so many zeros. -/
theorem ofDigitChars_lt (h : AreDigits cs) : Nat.ofDigitChars 10 cs 0 < 10 ^ cs.length := by
  induction cs using List.reverseRecOn with
  | nil => decide
  | append_singleton cs c ih =>
      obtain ⟨hcs, hc⟩ := areDigits_append.mp h
      have hlt := ih hcs
      have hvalue := digitValue?_lt (digitValue?_of_isDigit (hc c (List.mem_singleton_self c)))
      rw [Nat.ofDigitChars_append, Nat.ofDigitChars_cons, Nat.ofDigitChars_nil, List.length_append,
        List.length_singleton, pow_succ]
      omega

/-- Only the digits of zero begin with a zero, and then there is no other digit. -/
theorem digits_ne_zero_cons (h : digits n = '0' :: cs) : n = 0 ∧ cs = [] := by
  have hlength : (digits n).length = cs.length + 1 := by rw [h, List.length_cons]
  have hvalue : n = Nat.ofDigitChars 10 cs 0 := by
    have := Nat.ofDigitChars_ten_toDigits (n := n)
    rwa [show Nat.toDigits 10 n = '0' :: cs from h, Nat.ofDigitChars_cons, eq_comm] at this
  have hdigits : AreDigits cs := (areDigits_cons.mp (h ▸ areDigits_digits n)).2
  have hlt : n < 10 ^ cs.length := hvalue ▸ ofDigitChars_lt hdigits
  rcases Nat.eq_zero_or_pos cs.length with hzero | hpos
  · obtain rfl := List.eq_nil_of_length_eq_zero hzero
    exact ⟨hvalue, rfl⟩
  · -- Fewer digits would be enough.
    have hle := (Nat.length_toDigits_le_iff (b := 10) (by decide) hpos).mpr hlt
    exact absurd (hlength ▸ hle : cs.length + 1 ≤ cs.length) (by omega)

/-! ## Integers -/

/-- Digits are read up to the limit.  The number grows with each digit, so no part of it is beyond
the limit if the whole is not. -/
theorem readMagnitude_decimal {limit acc : ℕ} {beyond : IntegerError} (h : AreDigits cs)
    (hle : Nat.ofDigitChars 10 cs acc ≤ limit) :
    readMagnitude .decimal limit beyond acc cs = .ok (Nat.ofDigitChars 10 cs acc) := by
  induction cs generalizing acc with
  | nil => rw [readMagnitude, Nat.ofDigitChars_nil]
  | cons c cs ih =>
      obtain ⟨hc, hcs⟩ := areDigits_cons.mp h
      rw [Nat.ofDigitChars_cons, mul_comm] at hle ⊢
      have hroom := (le_ofDigitChars cs _).trans hle
      have hvalue : Numeral.decimal.value? c = some (c.toNat - '0'.toNat) :=
        digitValue?_of_isDigit hc
      rw [readMagnitude, hvalue]
      exact (if_pos hroom).trans (ih hcs hle)

/-- The digits of a number begin with a digit. -/
theorem exists_digits_eq_cons (n : ℕ) :
    ∃ c cs, digits n = c :: cs ∧ c.isDigit = true ∧ AreDigits cs := by
  cases h : digits n with
  | nil => exact absurd h Nat.toDigits_ne_nil
  | cons c cs => exact ⟨c, cs, rfl, areDigits_cons.mp (h ▸ areDigits_digits n)⟩

/-- A number up to the limit is read back from its digits.  They have neither a sign nor a prefix
that would be looked at first. -/
theorem readUnsigned_digits {limit : ℕ} (h : n ≤ limit) :
    readUnsigned .decimal limit (digits n) = .ok n := by
  have hread : readMagnitude .decimal limit .tooLarge 0 (digits n) = .ok n := by
    rw [readMagnitude_decimal (areDigits_digits n), digits, Nat.ofDigitChars_ten_toDigits]
    rwa [digits, Nat.ofDigitChars_ten_toDigits]
  obtain ⟨c, cs, hcons, hc, -⟩ := exists_digits_eq_cons n
  rw [hcons] at hread ⊢
  -- The first character is no plus sign.
  unfold readUnsigned
  split
  · contradiction
  · next heq =>
      obtain ⟨rfl, rfl⟩ := List.cons.inj heq
      exact absurd hc (by decide)
  · next heq =>
      obtain ⟨rfl, rfl⟩ := List.cons.inj heq
      exact absurd hc (by decide)
  · exact hread

/-- An integer between the limits is read back from its text.  There is one more negative number
than there are positive ones, as with the integers of 64 bits. -/
theorem readSigned_integer {limit : ℕ} {i : ℤ} (hlow : -(limit + 1 : ℤ) ≤ i) (hhigh : i ≤ limit) :
    readSigned .decimal limit (integer i).toList = .ok i := by
  rw [integer, String.toList_ofList]
  obtain ⟨c, cs, hcons, hc, hcs⟩ := exists_digits_eq_cons i.natAbs
  split
  · next hneg =>
      have hread : readMagnitude .decimal (limit + 1) .tooSmall 0 (digits i.natAbs) =
          .ok i.natAbs := by
        rw [readMagnitude_decimal (areDigits_digits _), digits, Nat.ofDigitChars_ten_toDigits]
        rw [digits, Nat.ofDigitChars_ten_toDigits]
        omega
      rw [hcons] at hread ⊢
      rw [readSigned, hread]
      · refine congrArg Except.ok ?_
        show -(i.natAbs : ℤ) = i
        omega
      · simp
  · next hneg =>
      have hread := readUnsigned_digits (show i.natAbs ≤ limit by omega)
      rw [hcons] at hread ⊢
      -- The first character is no minus sign.
      unfold readSigned
      split
      · next heq =>
          obtain ⟨rfl, rfl⟩ := List.cons.inj heq
          exact absurd hc (by decide)
      · next heq =>
          obtain ⟨rfl, rfl⟩ := List.cons.inj heq
          exact absurd hc (by decide)
      · rw [hread]
        exact congrArg Except.ok (Int.natAbs_of_nonneg (not_lt.mp hneg))

/-! ## Blanks around a text -/

/-- A text that neither begins nor ends with a blank. -/
structure IsTrim (cs : List Char) : Prop where
  head : ∀ c ∈ cs.head?, isBlank c = false
  last : ∀ c ∈ cs.getLast?, isBlank c = false

/-- What is cut off at the beginning is cut off, whatever stands behind it. -/
theorem dropWhile_append_of_forall {p : Char → Bool} (h : ∀ c ∈ cs, p c = true) :
    (cs ++ ds).dropWhile p = ds.dropWhile p := by
  rw [List.dropWhile_append, List.dropWhile_eq_nil_iff.mpr h]
  rfl

/-- Nothing is cut off where the first character stays. -/
theorem dropWhile_of_head {p : Char → Bool} (h : ∀ c ∈ cs.head?, p c = false) :
    cs.dropWhile p = cs := by
  cases cs with
  | nil => rfl
  | cons c cs => exact List.dropWhile_cons_of_neg (by rw [h c rfl]; exact Bool.false_ne_true)

/-- **Blanks around a text are cut off**, and nothing else, if the text itself neither begins nor
ends with one. -/
theorem trimBlanks_surround {before after : List Char} (h : IsTrim cs)
    (hbefore : ∀ c ∈ before, isBlank c = true) (hafter : ∀ c ∈ after, isBlank c = true) :
    trimBlanks (before ++ cs ++ after) = cs := by
  unfold trimBlanks
  rw [List.append_assoc, dropWhile_append_of_forall hbefore]
  cases hcs : cs with
  | nil =>
      rw [List.nil_append, List.dropWhile_eq_nil_iff.mpr hafter]
      rfl
  | cons c rest =>
      have hhead : ∀ d ∈ (c :: rest ++ after).head?, isBlank d = false := by
        rw [List.cons_append, List.head?_cons]
        exact fun d hd => h.head d (hcs ▸ hd)
      rw [dropWhile_of_head hhead, List.reverse_append,
        dropWhile_append_of_forall fun d hd => hafter d (List.mem_reverse.mp hd), ← hcs,
        dropWhile_of_head, List.reverse_reverse]
      rw [List.head?_reverse]
      exact h.last

/-- A text without blanks at its ends stays as it is. -/
theorem trimBlanks_eq_self (h : IsTrim cs) : trimBlanks cs = cs := by
  have hnone : ∀ c ∈ ([] : List Char), isBlank c = true := List.forall_mem_nil _
  have hsurround := trimBlanks_surround h hnone hnone
  rwa [List.nil_append, List.append_nil] at hsurround

/-- A text without any blank has none at its ends. -/
theorem isTrim_of_forall (h : ∀ c ∈ cs, isBlank c = false) : IsTrim cs :=
  ⟨fun c hc => h c (List.mem_of_mem_head? hc), fun c hc => h c (List.mem_of_mem_getLast? hc)⟩

end CostBasis.Text
