import CostBasis.Proofs.Json.Number
import CostBasis.Proofs.Json.Text

/-!
# JSON that is read back

A value made of written numbers and texts is read from its text again, whatever blanks stand between
its items.  What follows a value begins with a blank, a comma or a closing bracket, so no number is
read beyond its end.

Main statements: `IsWritten.readsBack`, `read?_write`.
-/

namespace CostBasis.Json

variable {layout : Layout} {v : Value} {n : Literal} {fuel depth : ℕ}
  {before after rest : List Char}

/-! ## Blanks -/

/-- Blanks are all that a layout puts between the items. -/
structure Layout.IsBlank (layout : Layout) : Prop where
  lineBreak : ∀ depth, ∀ c ∈ layout.lineBreak depth, isBlank c = true
  colon : ∃ after, layout.colon = ':' :: after ∧ ∀ c ∈ after, isBlank c = true

/-- In one line nothing but a colon stands between the items. -/
theorem Layout.isBlank_compact : Layout.compact.IsBlank :=
  ⟨fun _ => List.forall_mem_nil _, [], rfl, List.forall_mem_nil _⟩

/-- Blanks before an item make no difference. -/
theorem skipBlanks_append (hbefore : ∀ c ∈ before, isBlank c = true) (cs : List Char) :
    skipBlanks (before ++ cs) = skipBlanks cs :=
  Text.dropWhile_append_of_forall hbefore

/-- Blanks before a value make no difference. -/
theorem readValue_append (hbefore : ∀ c ∈ before, isBlank c = true) (cs : List Char) :
    readValue fuel (before ++ cs) = readValue fuel cs := by
  cases fuel with
  | zero => rw [readValue, readValue]
  | succ fuel => rw [readValue, readValue, skipBlanks_append hbefore]

/-- Blanks before an item make no difference. -/
theorem readItems_append (hbefore : ∀ c ∈ before, isBlank c = true) (cs : List Char) :
    readItems fuel (before ++ cs) = readItems fuel cs := by
  cases fuel with
  | zero => rw [readItems, readItems]
  | succ fuel => rw [readItems, readItems, readValue_append hbefore]

/-- Blanks before a member make no difference. -/
theorem readMembers_append (hbefore : ∀ c ∈ before, isBlank c = true) (cs : List Char) :
    readMembers fuel (before ++ cs) = readMembers fuel cs := by
  cases fuel with
  | zero => rw [readMembers, readMembers]
  | succ fuel => rw [readMembers, readMembers, skipBlanks_append hbefore]

/-- A comma or a closing bracket, perhaps behind blanks, ends the value before it.  Neither is a
part of a number. -/
theorem endsNumber_append {c : Char} (hc : c ∈ [',', ']', '\x7d'])
    (hafter : ∀ c ∈ after, isBlank c = true) (rest : List Char) :
    EndsNumber (after ++ c :: rest) := by
  intro b hb
  cases after with
  | nil =>
      obtain rfl := Option.some.inj hb
      simp only [List.mem_cons, List.not_mem_nil, or_false] at hc
      rcases hc with rfl | rfl | rfl <;> decide
  | cons d after =>
      obtain rfl := Option.some.inj hb
      have hblank := hafter d List.mem_cons_self
      simp only [isBlank, Bool.or_eq_true, beq_iff_eq] at hblank
      rcases hblank with ((rfl | rfl) | rfl) | rfl <;> decide

/-- A comma ends a number. -/
theorem endsNumber_comma (rest : List Char) : EndsNumber (',' :: rest) := by
  have hnone : ∀ c ∈ ([] : List Char), isBlank c = true := List.forall_mem_nil _
  exact endsNumber_append List.mem_cons_self hnone rest

/-! ## The first character of a value -/

/-- A value whose numbers and texts are written ones. -/
inductive IsWritten : Value → Prop where
  | null : IsWritten .null
  | bool (b : Bool) : IsWritten (.bool b)
  | number (n : Literal) : IsWritten (.number n.toChars)
  | string (s : String) : IsWritten (ofText s)
  | array {vs : List Value} (h : ∀ v ∈ vs, IsWritten v) : IsWritten (.array vs)
  | object {ms : List (String × Value)} (h : ∀ m ∈ ms, IsWritten m.2) : IsWritten (ofMembers ms)

/-- A number begins with its sign or with a digit, and no other kind of value does. -/
theorem Literal.head?_toChars (n : Literal) (rest : List Char) :
    ∀ c ∈ (n.toChars ++ rest).head?, c = '-' ∨ c.isDigit = true := by
  have hdigits := (Text.areDigits_append.mp n.areDigits).1
  unfold toChars
  cases hwhole : n.whole with
  | nil => exact absurd hwhole n.whole_ne_nil
  | cons d ds =>
      rw [hwhole] at hdigits
      cases n.isNegative with
      | true =>
          rintro _ ⟨rfl⟩
          exact .inl rfl
      | false =>
          rintro _ ⟨rfl⟩
          exact .inr (hdigits d List.mem_cons_self)

/-- No blank and no bracket stands before a value. -/
theorem IsWritten.head?_render (h : IsWritten v) (layout : Layout) (depth : ℕ) (rest : List Char) :
    ∀ c ∈ (render layout depth v ++ rest).head?, isBlank c = false ∧ c ≠ ']' := by
  cases h with
  | null =>
      rintro _ ⟨rfl⟩
      decide
  | bool b =>
      cases b with
      | true =>
          rintro _ ⟨rfl⟩
          decide
      | false =>
          rintro _ ⟨rfl⟩
          decide
  | number n =>
      intro c hc
      rw [render] at hc
      rcases n.head?_toChars rest c hc with rfl | hdigit
      · decide
      · constructor
        · rw [isBlank]
          simp only [Bool.or_eq_false_iff, beq_eq_false_iff_ne]
          refine ⟨⟨⟨?_, ?_⟩, ?_⟩, ?_⟩ <;> rintro rfl <;> exact absurd hdigit (by decide)
        · rintro rfl
          exact absurd hdigit (by decide)
  | string s =>
      rintro _ ⟨rfl⟩
      decide
  | @array vs h =>
      cases vs with
      | nil =>
          rintro _ ⟨rfl⟩
          decide
      | cons w ws =>
          rintro _ ⟨rfl⟩
          decide
  | @object ms h =>
      cases ms with
      | nil =>
          rintro _ ⟨rfl⟩
          decide
      | cons m ms =>
          rintro _ ⟨rfl⟩
          decide

/-! ## Reading what was written -/

/-- A value that is read back, whatever its text is a part of. -/
def ReadsBack (layout : Layout) (v : Value) : Prop :=
  ∀ (depth fuel : ℕ) (rest : List Char), EndsNumber rest → (render layout depth v).length < fuel →
    readValue fuel (render layout depth v ++ rest) = some (v, rest)

/-- A value takes a step of its own. -/
theorem ReadsBack.of_succ (h : ∀ (depth fuel : ℕ) (rest : List Char), EndsNumber rest →
    (render layout depth v).length ≤ fuel →
    readValue (fuel + 1) (render layout depth v ++ rest) = some (v, rest)) :
    ReadsBack layout v := by
  intro depth fuel rest hrest hfuel
  obtain ⟨fuel, rfl⟩ := Nat.exists_eq_add_one_of_ne_zero (Nat.ne_zero_of_lt hfuel)
  exact h depth fuel rest hrest (Nat.le_of_lt_succ hfuel)

/-- A number is read as a value: it begins with none of the characters that other values begin
with. -/
theorem readValue_number (hrest : EndsNumber rest) :
    readValue (fuel + 1) (n.toChars ++ rest) = some (.number n.toChars, rest) := by
  have hhead := n.head?_toChars rest
  have hfirst := (IsWritten.number n).head?_render .compact 0 rest
  rw [render] at hfirst
  have hskip : skipBlanks (n.toChars ++ rest) = n.toChars ++ rest :=
    Text.dropWhile_of_head fun c hc => (hfirst c hc).1
  rw [readValue, hskip]
  split
  · next heq => exact absurd (hhead 'n' (by rw [heq]; rfl)) (by decide)
  · next heq => exact absurd (hhead 't' (by rw [heq]; rfl)) (by decide)
  · next heq => exact absurd (hhead 'f' (by rw [heq]; rfl)) (by decide)
  · next heq => exact absurd (hhead '"' (by rw [heq]; rfl)) (by decide)
  · next heq => exact absurd (hhead '[' (by rw [heq]; rfl)) (by decide)
  · next heq => exact absurd (hhead '\x7b' (by rw [heq]; rfl)) (by decide)
  · rw [readNumber_toChars n hrest]
    rfl

/-- The items of an array are read one after the other.  The induction is on the items behind the
first one; each of them takes some of the fuel, which the length of its text pays for. -/
theorem readItems_render (hlayout : layout.IsBlank) {vs : List Value}
    (hv : ReadsBack layout v) (hvs : ∀ w ∈ vs, ReadsBack layout w)
    (hafter : ∀ c ∈ after, isBlank c = true)
    (hfuel : (render layout depth v).length + (renderItems layout depth vs).length + 1 < fuel)
    (rest : List Char) :
    readItems fuel (render layout depth v ++
      (renderItems layout depth vs ++ (after ++ ']' :: rest))) = some (v :: vs, rest) := by
  induction vs generalizing v fuel with
  | nil =>
      obtain ⟨fuel, rfl⟩ := Nat.exists_eq_add_one_of_ne_zero (Nat.ne_zero_of_lt hfuel)
      have hend : EndsNumber (after ++ ']' :: rest) := endsNumber_append (by decide) hafter rest
      have hskip : skipBlanks (after ++ ']' :: rest) = ']' :: rest := skipBlanks_append hafter _
      rw [renderItems, List.nil_append, readItems, hv _ _ _ hend (by omega)]
      simp only [Option.bind_eq_bind, Option.bind_some, hskip]
      rfl
  | cons w vs ih =>
      obtain ⟨fuel, rfl⟩ := Nat.exists_eq_add_one_of_ne_zero (Nat.ne_zero_of_lt hfuel)
      rw [renderItems] at hfuel ⊢
      simp only [List.length_cons, List.length_append, List.cons_append, List.append_assoc]
        at hfuel ⊢
      have hskip (cs : List Char) : skipBlanks (',' :: cs) = ',' :: cs := rfl
      obtain ⟨hw, hvs⟩ := List.forall_mem_cons.mp hvs
      have htail := ih hw hvs (show _ + _ + 1 < fuel by omega)
      rw [readItems, hv _ _ _ (endsNumber_comma _) (by omega)]
      simp only [Option.bind_eq_bind, Option.bind_some, hskip,
        readItems_append (hlayout.lineBreak depth), htail]
      rfl

/-- Behind a key and its value there is a further member or the end of the object.  This is one
round of the reader, for which there has to be fuel. -/
theorem readMembers_member (hlayout : layout.IsBlank) (hv : ReadsBack layout v) (k : String)
    (hend : EndsNumber rest) (hfuel : (render layout depth v).length < fuel) :
    readMembers (fuel + 1)
        (quoted (escape k) ++ (layout.colon ++ (render layout depth v ++ rest))) =
      match skipBlanks rest with
      | '\x7d' :: cs => some ([(escape k, v)], cs)
      | ',' :: cs => do
        let (ms, cs) ← readMembers fuel cs
        return ((escape k, v) :: ms, cs)
      | _ => none := by
  obtain ⟨behind, hcolon, hbehind⟩ := hlayout.colon
  have hquote (cs : List Char) : skipBlanks ('"' :: cs) = '"' :: cs := rfl
  have hskip (cs : List Char) : skipBlanks (':' :: cs) = ':' :: cs := rfl
  unfold quoted
  simp only [List.cons_append, List.append_assoc, List.nil_append, hcolon]
  rw [readMembers, hquote]
  simp only [readString_escape, Option.bind_eq_bind, Option.bind_some, hskip,
    readValue_append hbehind, hv _ _ _ hend hfuel]
  rfl

/-- The members of an object, with their keys as they are written. -/
def writtenMembers (ms : List (String × Value)) : List (List Char × Value) :=
  ms.map fun m => (escape m.1, m.2)

/-- The members of an object are read one after the other.  As with the items of an array, the
induction is on the members behind the first one. -/
theorem readMembers_render (hlayout : layout.IsBlank) (k : String) {ms : List (String × Value)}
    (hv : ReadsBack layout v) (hms : ∀ m ∈ ms, ReadsBack layout m.2)
    (hafter : ∀ c ∈ after, isBlank c = true)
    (hfuel : (render layout depth v).length +
      (renderMembers layout depth (writtenMembers ms)).length + 1 < fuel) (rest : List Char) :
    readMembers fuel (quoted (escape k) ++ (layout.colon ++ (render layout depth v ++
      (renderMembers layout depth (writtenMembers ms) ++ (after ++ '\x7d' :: rest))))) =
      some ((escape k, v) :: writtenMembers ms, rest) := by
  induction ms generalizing k v fuel with
  | nil =>
      obtain ⟨fuel, rfl⟩ := Nat.exists_eq_add_one_of_ne_zero (Nat.ne_zero_of_lt hfuel)
      have hend : EndsNumber (after ++ '\x7d' :: rest) := endsNumber_append (by decide) hafter rest
      have hskip : skipBlanks (after ++ '\x7d' :: rest) = '\x7d' :: rest :=
        skipBlanks_append hafter _
      rw [writtenMembers, List.map_nil, renderMembers, List.nil_append,
        readMembers_member hlayout hv k hend (by omega), hskip]
      rfl
  | cons m ms ih =>
      obtain ⟨fuel, rfl⟩ := Nat.exists_eq_add_one_of_ne_zero (Nat.ne_zero_of_lt hfuel)
      have hcons : writtenMembers (m :: ms) = (escape m.1, m.2) :: writtenMembers ms := rfl
      rw [hcons, renderMembers] at hfuel ⊢
      simp only [List.length_cons, List.length_append, List.cons_append, List.append_assoc]
        at hfuel ⊢
      have hskip (cs : List Char) : skipBlanks (',' :: cs) = ',' :: cs := rfl
      obtain ⟨hm, hms⟩ := List.forall_mem_cons.mp hms
      have htail := ih m.1 hm hms (show _ + _ + 1 < fuel by omega)
      rw [readMembers_member hlayout hv k (endsNumber_comma _) (by omega), hskip]
      simp only [readMembers_append (hlayout.lineBreak depth), htail]
      rfl

/-- An array is read back if its items are.  An empty one is a case of its own, as nothing stands
between its brackets. -/
theorem readsBack_array (hlayout : layout.IsBlank) {vs : List Value}
    (h : ∀ v ∈ vs, IsWritten v) (hvs : ∀ v ∈ vs, ReadsBack layout v) :
    ReadsBack layout (.array vs) := by
  refine .of_succ fun depth fuel rest hrest hfuel => ?_
  have hbracket (cs : List Char) : skipBlanks ('[' :: cs) = '[' :: cs := rfl
  cases vs with
  | nil =>
      rw [render, readValue]
      rfl
  | cons v vs =>
      obtain ⟨hv, hvs⟩ := List.forall_mem_cons.mp hvs
      have hhead := (h v List.mem_cons_self).head?_render layout (depth + 1)
      have hskip (cs : List Char) : skipBlanks (render layout (depth + 1) v ++ cs) =
          render layout (depth + 1) v ++ cs :=
        Text.dropWhile_of_head fun c hc => (hhead cs c hc).1
      rw [render] at hfuel ⊢
      simp only [List.length_cons, List.length_append, List.cons_append, List.append_assoc,
        List.nil_append] at hfuel ⊢
      rw [readValue, hbracket]
      simp only [skipBlanks_append (hlayout.lineBreak (depth + 1)), hskip]
      split
      · next heq =>
          -- The first item does not begin with the closing bracket.
          exact absurd rfl (hhead _ ']' (by rw [heq]; rfl)).2
      · rw [readItems_render hlayout hv hvs (hlayout.lineBreak depth) (by omega)]
        rfl

/-- An object is read back if its values are.  An empty one is a case of its own here as well. -/
theorem readsBack_object (hlayout : layout.IsBlank) {ms : List (String × Value)}
    (hms : ∀ m ∈ ms, ReadsBack layout m.2) : ReadsBack layout (ofMembers ms) := by
  refine .of_succ fun depth fuel rest hrest hfuel => ?_
  have hbrace (cs : List Char) : skipBlanks ('\x7b' :: cs) = '\x7b' :: cs := rfl
  cases ms with
  | nil =>
      rw [ofMembers, List.map_nil, render, readValue]
      rfl
  | cons m ms =>
      obtain ⟨hm, hms⟩ := List.forall_mem_cons.mp hms
      have hmembers : ofMembers (m :: ms) = .object ((escape m.1, m.2) :: writtenMembers ms) := rfl
      have hskip (cs : List Char) : skipBlanks (quoted (escape m.1) ++ cs) =
          '"' :: ((escape m.1 ++ ['"']) ++ cs) := rfl
      rw [hmembers, render] at hfuel ⊢
      simp only [List.length_cons, List.length_append, List.cons_append, List.append_assoc,
        List.nil_append] at hfuel ⊢
      have hread := readMembers_render hlayout m.1 hm hms (hlayout.lineBreak depth)
        (show (render layout (depth + 1) m.2).length + _ + 1 < fuel by omega) rest
      rw [readValue, hbrace]
      simp only [skipBlanks_append (hlayout.lineBreak (depth + 1)), hskip]
      exact congrArg (Option.map fun (ms, cs) => (Value.object ms, cs)) hread

/-- **A written value is read back**, up to its last character.  The induction is on how the value
is put together. -/
theorem IsWritten.readsBack (hlayout : layout.IsBlank) (h : IsWritten v) : ReadsBack layout v := by
  induction h with
  | array h ih => exact readsBack_array hlayout h ih
  | object h ih => exact readsBack_object hlayout ih
  | null =>
      refine .of_succ fun depth fuel rest hrest hfuel => ?_
      rw [render, readValue]
      rfl
  | bool b =>
      refine .of_succ fun depth fuel rest hrest hfuel => ?_
      cases b with
      | true =>
          rw [render, readValue]
          rfl
      | false =>
          rw [render, readValue]
          rfl
  | number n =>
      refine .of_succ fun depth fuel rest hrest hfuel => ?_
      rw [render]
      exact readValue_number hrest
  | string s =>
      refine .of_succ fun depth fuel rest hrest hfuel => ?_
      have hquote (cs : List Char) : skipBlanks ('"' :: cs) = '"' :: cs := rfl
      rw [ofText, render, quoted, List.cons_append, List.cons_append, List.append_assoc,
        List.singleton_append, readValue, hquote]
      simp only [readString_escape]
      rfl

/-- **Reading undoes writing**, in one line and in any other layout of blanks.  The length of the
text is fuel enough. -/
theorem read?_write (hlayout : layout.IsBlank) (h : IsWritten v) :
    read? (write layout v) = some v := by
  have hroom : (render layout 0 v).length < 2 * (render layout 0 v).length + 2 := by omega
  have hread := h.readsBack hlayout 0 _ [] endsNumber_nil hroom
  rw [List.append_nil] at hread
  rw [read?, write, String.toList_ofList]
  simp only [hread]
  rfl

end CostBasis.Json
