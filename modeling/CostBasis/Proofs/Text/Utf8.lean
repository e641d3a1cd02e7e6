import CostBasis.Text.Utf8
import Mathlib

/-!
# Texts that are read back from their bytes

Each character is written as one to four bytes, and the first of them says how many.  So the bytes
of a text are read back as the text.  A byte below 128 is a character of its own, and no part of
another one: what separates fields never stands inside a character.

Main statements: `decode?_encode`, `exists_of_mem_encode`.
-/

namespace CostBasis.Text.Utf8

variable {c : Char} {s : String} {a b d e : UInt8} {n : ℕ} {rest : List UInt8}

/-! ## One character -/

/-- A small number is what the byte with that number stands for. -/
theorem toNat_ofNat_of_lt (h : n < 256) : (UInt8.ofNat n).toNat = n := UInt8.toNat_ofNat_of_lt' h

/-- Bytes are compared by their numbers. -/
theorem not_lt_of_le_toNat (h : b.toNat ≤ a.toNat) : ¬a < b :=
  UInt8.not_lt.mpr (UInt8.le_iff_toNat_le.mpr h)

/-- A byte behind the first carries six bits. -/
theorem tail?_ofNat (h : n < 64) : tail? (UInt8.ofNat (n + 0x80)) = some n := by
  have hn : (UInt8.ofNat (n + 0x80)).toNat = n + 0x80 := toNat_ofNat_of_lt (by omega)
  have hlow : 0x80 ≤ (UInt8.ofNat (n + 0x80)).toNat := by omega
  have hhigh : (UInt8.ofNat (n + 0x80)).toNat < 0xC0 := by omega
  rw [tail?, if_pos ⟨hlow, hhigh⟩, hn, Nat.add_sub_cancel]

/-- A character is found from its number, if the number is not below the least one of its length. -/
theorem charFrom?_toNat (c : Char) {least : ℕ} (h : least ≤ c.toNat) :
    charFrom? least c.toNat = some c := by
  have hvalid : c.toNat.isValidChar := c.valid
  rw [charFrom?, dif_pos hvalid, if_pos h]
  exact congrArg some (Char.toNat_inj.mp rfl)

/-! The first byte says how many bytes a character has. -/

/-- A first byte below 128 is a character. -/
theorem next?_of_one (h : a.toNat < 0x80) :
    next? (a :: rest) = some (Char.ofNat a.toNat, rest) := by
  have h1 : a < 0x80 := h
  unfold next?
  simp only [if_pos h1]

/-- A first byte from 192 on stands before one more. -/
theorem next?_of_two (hlow : 0xC0 ≤ a.toNat) (hhigh : a.toNat < 0xE0) :
    next? (a :: b :: rest) = (do
      let b ← tail? b
      let c ← charFrom? 0x80 ((a.toNat - 0xC0) * 64 + b)
      return (c, rest)) := by
  have h1 : ¬a < 0x80 := not_lt_of_le_toNat (show 0x80 ≤ a.toNat by omega)
  have h2 : ¬a < 0xC0 := not_lt_of_le_toNat hlow
  have h3 : a < 0xE0 := hhigh
  conv_lhs => unfold next?
  simp only [if_neg h1, if_neg h2, if_pos h3]

/-- A first byte from 224 on stands before two more, and each of them brings six binary digits. -/
theorem next?_of_three (hlow : 0xE0 ≤ a.toNat) (hhigh : a.toNat < 0xF0) :
    next? (a :: b :: d :: rest) = (do
      let b ← tail? b
      let d ← tail? d
      let c ← charFrom? 0x800 (((a.toNat - 0xE0) * 64 + b) * 64 + d)
      return (c, rest)) := by
  have h1 : ¬a < 0x80 := not_lt_of_le_toNat (show 0x80 ≤ a.toNat by omega)
  have h2 : ¬a < 0xC0 := not_lt_of_le_toNat (show 0xC0 ≤ a.toNat by omega)
  have h3 : ¬a < 0xE0 := not_lt_of_le_toNat hlow
  have h4 : a < 0xF0 := hhigh
  conv_lhs => unfold next?
  simp only [if_neg h1, if_neg h2, if_neg h3, if_pos h4]

/-- A first byte from 240 on stands before three more, and each of them brings six binary digits. -/
theorem next?_of_four (hlow : 0xF0 ≤ a.toNat) (hhigh : a.toNat < 0xF8) :
    next? (a :: b :: d :: e :: rest) = (do
      let b ← tail? b
      let d ← tail? d
      let e ← tail? e
      let c ← charFrom? 0x10000 ((((a.toNat - 0xF0) * 64 + b) * 64 + d) * 64 + e)
      return (c, rest)) := by
  have h1 : ¬a < 0x80 := not_lt_of_le_toNat (show 0x80 ≤ a.toNat by omega)
  have h2 : ¬a < 0xC0 := not_lt_of_le_toNat (show 0xC0 ≤ a.toNat by omega)
  have h3 : ¬a < 0xE0 := not_lt_of_le_toNat (show 0xE0 ≤ a.toNat by omega)
  have h4 : ¬a < 0xF0 := not_lt_of_le_toNat hlow
  have h5 : a < 0xF8 := hhigh
  conv_lhs => unfold next?
  simp only [if_neg h1, if_neg h2, if_neg h3, if_neg h4, if_pos h5]

/-- **A character is read back from its bytes**, and what follows it is left.  The four cases are
the four lengths; in each of them the number is put together again from its digits to the base
64. -/
theorem next?_utf8EncodeChar (c : Char) (rest : List UInt8) :
    next? (String.utf8EncodeChar c ++ rest) = some (c, rest) := by
  have hmax : c.toNat < 0x110000 := by
    rcases c.valid with h | ⟨-, h⟩
    · exact h.trans (by decide)
    · exact h
  unfold String.utf8EncodeChar
  simp only [show c.val.toNat = c.toNat from rfl]
  split_ifs with h1 h2 h3
  · have ha : (UInt8.ofNat c.toNat).toNat = c.toNat := toNat_ofNat_of_lt (by omega)
    rw [List.cons_append, List.nil_append, next?_of_one (by omega), ha, Char.ofNat_toNat]
  · have ha : (UInt8.ofNat (c.toNat / 64 % 32 + 192)).toNat = c.toNat / 64 + 192 := by
      rw [toNat_ofNat_of_lt (by omega)]
      omega
    have hc : (c.toNat / 64 + 192 - 192) * 64 + c.toNat % 64 = c.toNat := by omega
    simp only [List.cons_append, List.nil_append]
    rw [next?_of_two (by omega) (by omega), ha, tail?_ofNat (Nat.mod_lt _ (by decide))]
    simp only [Option.bind_eq_bind, Option.bind_some, hc]
    rw [charFrom?_toNat c (by omega)]
    rfl
  · have ha : (UInt8.ofNat (c.toNat / 4096 % 16 + 224)).toNat = c.toNat / 4096 + 224 := by
      rw [toNat_ofNat_of_lt (by omega)]
      omega
    have hc : ((c.toNat / 4096 + 224 - 224) * 64 + c.toNat / 64 % 64) * 64 + c.toNat % 64 =
        c.toNat := by omega
    simp only [List.cons_append, List.nil_append]
    rw [next?_of_three (by omega) (by omega), ha, tail?_ofNat (Nat.mod_lt _ (by decide)),
      tail?_ofNat (Nat.mod_lt _ (by decide))]
    simp only [Option.bind_eq_bind, Option.bind_some, hc]
    rw [charFrom?_toNat c (by omega)]
    rfl
  · have ha : (UInt8.ofNat (c.toNat / 262144 % 8 + 240)).toNat = c.toNat / 262144 + 240 := by
      rw [toNat_ofNat_of_lt (by omega)]
      omega
    have hc : (((c.toNat / 262144 + 240 - 240) * 64 + c.toNat / 4096 % 64) * 64 +
        c.toNat / 64 % 64) * 64 + c.toNat % 64 = c.toNat := by omega
    simp only [List.cons_append, List.nil_append]
    rw [next?_of_four (by omega) (by omega), ha, tail?_ofNat (Nat.mod_lt _ (by decide)),
      tail?_ofNat (Nat.mod_lt _ (by decide)), tail?_ofNat (Nat.mod_lt _ (by decide))]
    simp only [Option.bind_eq_bind, Option.bind_some, hc]
    rw [charFrom?_toNat c (by omega)]
    rfl

/-! ## A text -/

/-- Characters are read one after another, as long as there is fuel for each of them, and no byte is
left. -/
theorem readFrom_encode (cs : List Char) {fuel : ℕ} (h : cs.length ≤ fuel) :
    readFrom fuel (cs.flatMap String.utf8EncodeChar) = (cs, []) := by
  induction cs generalizing fuel with
  | nil =>
      rw [List.flatMap_nil]
      cases fuel with
      | zero => rfl
      | succ fuel => rw [readFrom, next?]
  | cons c cs ih =>
      obtain ⟨fuel, rfl⟩ : ∃ n, fuel = n + 1 := ⟨fuel - 1, by rw [List.length_cons] at h; omega⟩
      have hfuel : cs.length ≤ fuel := Nat.le_of_succ_le_succ h
      rw [List.flatMap_cons, readFrom, next?_utf8EncodeChar]
      simp only [ih hfuel]

/-- What is put together from parts with something in each is as long as there are parts.  So the
length of a text is fuel enough for its characters. -/
theorem length_le_length_flatMap {α β : Type} {f : α → List β} {l : List α}
    (h : ∀ a ∈ l, f a ≠ []) : l.length ≤ (l.flatMap f).length := by
  induction l with
  | nil => exact Nat.zero_le _
  | cons a l ih =>
      obtain ⟨ha, hl⟩ := List.forall_mem_cons.mp h
      have hpos := List.length_pos_iff.mpr ha
      have hrest := ih hl
      rw [List.flatMap_cons, List.length_append, List.length_cons]
      omega

/-- **A text is read back from its bytes.** -/
theorem decode?_encode (s : String) : decode? (encode s) = some s := by
  have hread : read (encode s) = (s.toList, []) :=
    readFrom_encode s.toList (length_le_length_flatMap fun _ _ => String.utf8EncodeChar_ne_nil)
  rw [decode?, hread]
  exact congrArg some String.ofList_toList

/-- The bytes of a text are those of its parts. -/
theorem encode_append (s t : String) : encode (s ++ t) = encode s ++ encode t := by
  rw [encode, String.toList_append, List.flatMap_append, encode, encode]

/-! ## Bytes below 128 -/

/-- A byte below 128 is a character of its own.  The bytes of a longer character are all above, so
no comma and no end of a line is ever found inside one. -/
theorem utf8EncodeChar_of_mem (hb : b ∈ String.utf8EncodeChar c) (h : b.toNat < 0x80) :
    String.utf8EncodeChar c = [b] ∧ b.toNat = c.toNat := by
  have hlarge {n : ℕ} (hlow : 128 ≤ n) (hhigh : n < 256) (heq : b = UInt8.ofNat n) : False := by
    have := toNat_ofNat_of_lt hhigh
    rw [heq] at h
    omega
  unfold String.utf8EncodeChar at hb ⊢
  simp only [show c.val.toNat = c.toNat from rfl] at hb ⊢
  split_ifs at hb ⊢ with h1 h2 h3
  · obtain rfl := List.mem_singleton.mp hb
    exact ⟨rfl, toNat_ofNat_of_lt (by omega)⟩
  -- Each byte of a longer sequence is 128 or more.
  · exfalso
    simp only [List.mem_cons, List.not_mem_nil, or_false] at hb
    rcases hb with hb | hb <;> exact hlarge (by omega) (by omega) hb
  · exfalso
    simp only [List.mem_cons, List.not_mem_nil, or_false] at hb
    rcases hb with hb | hb | hb <;> exact hlarge (by omega) (by omega) hb
  · exfalso
    simp only [List.mem_cons, List.not_mem_nil, or_false] at hb
    rcases hb with hb | hb | hb | hb <;> exact hlarge (by omega) (by omega) hb

/-- A byte below 128 in a text is one of its characters. -/
theorem exists_of_mem_encode (hb : b ∈ encode s) (h : b.toNat < 0x80) :
    ∃ c ∈ s.toList, c.toNat = b.toNat := by
  obtain ⟨c, hc, hb⟩ := List.mem_flatMap.mp hb
  exact ⟨c, hc, (utf8EncodeChar_of_mem hb h).2.symm⟩

end CostBasis.Text.Utf8
