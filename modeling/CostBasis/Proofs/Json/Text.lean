import CostBasis.Json.Decode

/-!
# Texts through JSON

A text is written character by character, the few that may not stand in a string with a backslash
before them.  No character is written as two halves, so reading gives back each one of them.

Main statements: `readString_escape`, `unescape?_escape`.
-/

namespace CostBasis.Json

variable {c : Char} {cs rest : List Char}

/-- What is written for one character of a text: a backslash with a letter, a backslash with its
number, or the character itself. -/
theorem escapeChar_cases (c : Char) :
    (∃ e, escapeChar c = ['\\', e] ∧ escaped? e = some c) ∨
    (∃ a b d e, escapeChar c = ['\\', 'u', a, b, d, e] ∧ hexUnit? a b d e = some c.toNat) ∨
    (escapeChar c = [c] ∧ c ≠ '"' ∧ c ≠ '\\' ∧ 32 ≤ c.toNat) := by
  have hhex : ∀ n < 32,
      hexUnit? '0' '0' (Nat.digitChar (n / 16)) (Nat.digitChar (n % 16)) = some n := by
    decide
  unfold escapeChar
  split
  · exact .inl ⟨_, rfl, rfl⟩
  · exact .inl ⟨_, rfl, rfl⟩
  · exact .inl ⟨_, rfl, rfl⟩
  · exact .inl ⟨_, rfl, rfl⟩
  · exact .inl ⟨_, rfl, rfl⟩
  · exact .inl ⟨_, rfl, rfl⟩
  · exact .inl ⟨_, rfl, rfl⟩
  · next hquote hbackslash _ _ _ _ _ =>
      split
      · next hlt => exact .inr (.inl ⟨_, _, _, _, rfl, hhex _ hlt⟩)
      · next hlt => exact .inr (.inr ⟨rfl, hquote, hbackslash, Nat.not_lt.mp hlt⟩)

/-- A letter that stands for a character behind a backslash is no mark of a number. -/
theorem ne_u_of_escaped? {e : Char} (h : escaped? e = some c) : e ≠ 'u' := by
  rintro rfl
  exact Option.some_ne_none c h.symm

/-! ## The end of a string -/

/-- A character is read as it was written, and what follows it is left for the rest.  What is
written for it holds no quote that is not behind a backslash. -/
theorem readString_escapeChar (c : Char) (cs : List Char) :
    readString (escapeChar c ++ cs) =
      (readString cs).map fun (s, rest) => (escapeChar c ++ s, rest) := by
  rcases escapeChar_cases c with ⟨e, hc, he⟩ | ⟨a, b, d, e, hc, hunit⟩ | ⟨hc, hquote, hback, hlow⟩
  · simp only [hc, List.cons_append, List.nil_append]
    rw [readString]
    · rw [he, Option.isSome_some, if_pos rfl]
    · intro a b c' d cs' he'
      exact absurd he' (ne_u_of_escaped? he)
  · simp only [hc, List.cons_append, List.nil_append]
    rw [readString, hunit, Option.isSome_some, if_pos rfl]
  · simp only [hc, List.cons_append, List.nil_append]
    rw [readString, if_neg (not_or.mpr ⟨Nat.not_lt.mpr hlow, hback⟩)]
    · exact hquote
    · rintro a b c' d cs' rfl
      exact absurd rfl hback
    · rintro c' cs' rfl
      exact absurd rfl hback

/-- **A string is read up to the quote behind it**, whatever characters are in it. -/
theorem readString_escape (s : String) (rest : List Char) :
    readString (escape s ++ '"' :: rest) = some (escape s, rest) := by
  unfold escape
  induction s.toList with
  | nil => rfl
  | cons c cs ih =>
      rw [List.flatMap_cons, List.append_assoc, readString_escapeChar, ih]
      rfl

/-! ## The characters of a string -/

/-- The number of a character is found again in what was written for it, be it a letter behind a
backslash, four digits, or the character itself. -/
theorem units?_escapeChar (c : Char) (cs : List Char) :
    units? (escapeChar c ++ cs) = (units? cs).map (c.toNat :: ·) := by
  rcases escapeChar_cases c with ⟨e, hc, he⟩ | ⟨a, b, d, e, hc, hunit⟩ | ⟨hc, -, hback, -⟩
  · simp only [hc, List.cons_append, List.nil_append]
    rw [units?]
    · rw [he]
      cases units? cs <;> rfl
    · intro a b c' d cs' he'
      exact absurd he' (ne_u_of_escaped? he)
  · simp only [hc, List.cons_append, List.nil_append]
    rw [units?, hunit]
    cases units? cs <;> rfl
  · simp only [hc, List.cons_append, List.nil_append]
    rw [units?]
    · rintro a b c' d cs' rfl
      exact absurd rfl hback
    · rintro c' cs' rfl
      exact absurd rfl hback

/-- The numbers of the characters of a text are found again, one by one. -/
theorem units?_flatMap (cs : List Char) :
    units? (cs.flatMap escapeChar) = some (cs.map Char.toNat) := by
  induction cs with
  | nil => rfl
  | cons c cs ih =>
      rw [List.flatMap_cons, units?_escapeChar, ih]
      rfl

/-- No character is a half, so a number that is one stands for no character by itself. -/
theorem not_half (c : Char) : isHighHalf c.toNat = false ∧ isLowHalf c.toNat = false := by
  have hvalid := c.valid
  unfold isHighHalf isLowHalf
  simp only [Bool.and_eq_false_iff, decide_eq_false_iff_not]
  change c.toNat < 0xD800 ∨ 0xDFFF < c.toNat ∧ c.toNat < 0x110000 at hvalid
  omega

/-- Where there are no halves nothing is joined: the number of a character is none of those that
stand for half of one. -/
theorem joinHalves?_map (cs : List Char) : joinHalves? (cs.map Char.toNat) = some cs := by
  induction cs with
  | nil => rfl
  | cons c cs ih =>
      obtain ⟨hhigh, hlow⟩ := not_half c
      cases cs with
      | nil => rw [List.map_singleton, joinHalves?, hhigh, hlow, Char.ofNat_toNat]; rfl
      | cons c' cs =>
          rw [List.map_cons] at ih
          rw [List.map_cons, List.map_cons, joinHalves?, hhigh, hlow, ih, Char.ofNat_toNat]
          rfl

/-- **The text of a string** is the one that it was written for. -/
theorem unescape?_escape (s : String) : unescape? (escape s) = some s := by
  rw [unescape?, escape, units?_flatMap, Option.bind_eq_bind, Option.bind_some, joinHalves?_map,
    Option.bind_eq_bind, Option.bind_some, String.ofList_toList]
  rfl

/-- A text as a value is read as what it was. -/
theorem toText?_ofText (s : String) : (ofText s).toText? = some s := unescape?_escape s

end CostBasis.Json
