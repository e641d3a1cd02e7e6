import CostBasis.Proofs.Json.Decimal
import CostBasis.Proofs.Json.Reader

/-!
# Records through JSON

An object whose keys differ has under each key the value that was written there.  Integers, names
and instants are taken from their values as they were.

Main statements: `fields?_ofMembers`, `toUInt64?_ofInt`, `toInt64?_ofInt`.
-/

namespace CostBasis.Json

open Value

/-! ## Members -/

/-- If each item is read back as something, the list is read back item by item. -/
theorem mapM_map_eq_some {α β γ : Type} {f : β → Option γ} {g : α → β} {h : α → γ} {l : List α}
    (hf : ∀ a ∈ l, f (g a) = some (h a)) : (l.map g).mapM f = some (l.map h) := by
  induction l with
  | nil => rfl
  | cons a l ih =>
      rw [List.map_cons, List.mapM_cons, hf a List.mem_cons_self,
        ih fun b hb => hf b (List.mem_cons_of_mem _ hb)]
      rfl

/-- The keys of an object are read as they were before they were escaped. -/
theorem members?_ofMembers (ms : List (String × Value)) : (ofMembers ms).members? = some ms := by
  refine (mapM_map_eq_some (h := id) fun m _ => ?_).trans (congrArg some (List.map_id ms))
  show (unescape? (escape m.1)).map (·, m.2) = some m
  rw [unescape?_escape]
  rfl

/-- Of different keys, each has one value.  A field that is looked for under its name is the one
that was written there. -/
theorem filter_key {ms : List (String × Value)} (hkeys : (ms.map Prod.fst).Nodup)
    {m : String × Value} (hm : m ∈ ms) : ms.filter (fun m' => m'.1 == m.1) = [m] := by
  induction ms with
  | nil => exact absurd hm List.not_mem_nil
  | cons m' ms ih =>
      obtain ⟨hnot, hkeys⟩ := List.nodup_cons.mp hkeys
      rcases List.mem_cons.mp hm with rfl | hm
      · rw [List.filter_cons, if_pos (beq_self_eq_true _), List.filter_eq_nil_iff.mpr]
        intro u hu heq
        exact hnot (List.mem_map.mpr ⟨u, hu, eq_of_beq heq⟩)
      · have hne : ¬(m'.1 == m.1) = true := fun heq =>
          hnot (List.mem_map.mpr ⟨m, hm, (eq_of_beq heq).symm⟩)
        rw [List.filter_cons, if_neg hne, ih hkeys hm]

/-- **The fields of a record** are found under their keys. -/
theorem fields?_ofMembers {ms : List (String × Value)} (hkeys : (ms.map Prod.fst).Nodup)
    (spare : ℕ) :
    (ofMembers ms).fields? (ms.map Prod.fst) spare = some (ms.map fun m => some m.2) := by
  rw [ofMembers, fields?, ← ofMembers, members?_ofMembers, Option.bind_eq_bind, Option.bind_some]
  · refine mapM_map_eq_some fun m hm => ?_
    rw [filter_key hkeys hm]
  · intro items h
    cases h

/-! ## Integers -/

/-- An integer, as it is written. -/
def Literal.ofInt (i : ℤ) : Literal where
  isNegative := decide (i < 0)
  whole := Text.digits i.natAbs
  places := none
  exponent := none
  areDigits := Text.areDigits_append.mpr ⟨Text.areDigits_digits _, List.forall_mem_nil _⟩
  whole_ne_nil := Nat.toDigits_ne_nil
  leading _ h := (Text.digits_ne_zero_cons h).2
  places_ne_nil _ h := absurd h (Option.not_mem_none _)

variable {i : ℤ}

/-- An integer as a value is its literal. -/
theorem ofInt_eq (i : ℤ) : ofInt i = .number (Literal.ofInt i).toChars := by
  rw [ofInt, Text.integer, String.toList_ofList]
  unfold Literal.toChars Literal.ofInt Literal.placesChars Literal.exponentChars
  simp only [decide_eq_true_eq, List.append_nil]
  split_ifs <;> rfl

/-- An integer is read as one.  A zero is written without a sign, so that it is read as an integer
too. -/
theorem toInt?_ofInt (i : ℤ) : (Literal.ofInt i).numeral.toInt? = some i := by
  have hvalue : ofDigits (Text.digits i.natAbs) = i.natAbs := Nat.ofDigitChars_ten_toDigits
  unfold Numeral.toInt? Literal.numeral Literal.ofInt
  simp only [Option.getD_none, List.isEmpty_nil, Bool.not_true, Option.isSome_none, Bool.or_self,
    Bool.false_eq_true, if_false, hvalue, decide_eq_true_eq]
  split_ifs
  · omega
  · exact congrArg some (by omega)
  · exact congrArg some (by omega)

/-- An integer between the bounds is taken. -/
theorem toIntIn?_ofInt {lower upper : ℤ} (hlower : lower ≤ i) (hupper : i ≤ upper) :
    (ofInt i).toIntIn? lower upper = some i := by
  rw [ofInt_eq, toIntIn?, Literal.ofLiteral_toChars, toInt?_ofInt, Option.filter_some, if_pos]
  simp only [hlower, hupper, decide_true, Bool.and_self]

/-- An unsigned integer of 64 bits is what it was. -/
theorem toUInt64?_ofInt (n : UInt64) : (ofInt n.toNat).toUInt64? = some n := by
  have hlt := n.toNat_lt_size
  rw [toUInt64?, toIntIn?_ofInt (by omega) (by omega), Option.map_some, Int.toNat_natCast,
    UInt64.ofNat_toNat]

/-- A signed integer of 64 bits is what it was. -/
theorem toInt64?_ofInt (n : Int64) : (ofInt n.toInt).toInt64? = some n := by
  rw [toInt64?, toIntIn?_ofInt n.minValue_le_toInt n.toInt_le, Option.map_some, Int64.ofInt_toInt]

end CostBasis.Json

namespace CostBasis

/-- An instant is what it was: it is written in milliseconds, not as a date. -/
theorem Instant.ofJson?_toJson (t : Instant) : Instant.ofJson? t.toJson = some t := by
  rw [Instant.ofJson?, Instant.toJson, Json.toInt64?_ofInt, Option.map_some]

/-- A side is what it was, since its name names no other one. -/
theorem Side.ofJson?_toJson (s : Side) : Side.ofJson? s.toJson = some s := by
  have hword : s.toJson.toWord? = some s.toText := Json.unescape?_escape s.toText
  rw [Side.ofJson?, hword, Option.bind_eq_bind, Option.bind_some]
  cases s <;> rfl

end CostBasis
