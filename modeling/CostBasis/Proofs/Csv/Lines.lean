import CostBasis.Csv.TradeFile
import CostBasis.Proofs.Text.Digits
import CostBasis.Proofs.Text.Utf8

/-!
# Lines that are read back

A text of lines with fields between commas is read back as its fields, as long as no field has a
character in it that divides fields, quotes them or ends a line, and none begins or ends with a
blank.  This is so for lines that end with a line feed and for those that end with a carriage
return before it: what is left of the end of one line is skipped before the next one.

Main statements: `fields_records_text`, `decodeFields_encode`.
-/

namespace CostBasis.Csv

open Text (IsTrim)
open Text.Utf8

/-! ## Texts of lines -/

/-- The fields of a line and what ends it. -/
def line (lineEnd : String) (fields : List String) : String := ",".intercalate fields ++ lineEnd

/-- Lines one after another. -/
def text (lineEnd : String) (rows : List (List String)) : String :=
  String.join (rows.map (line lineEnd))

/-- A field that needs no quotes, and that loses nothing by being trimmed. -/
structure IsPlain (s : String) : Prop where
  undivided : ∀ c ∈ s.toList, c ∉ [',', '"', '\n', '\r']
  isTrim : IsTrim s.toList

/-! ## Bytes of a field -/

/-- Bytes that are ordinary text wherever they stand in a field. -/
def AreOrdinary (bytes : List UInt8) : Prop :=
  ∀ b ∈ bytes, b ≠ quote ∧ b ≠ comma ∧ isLineEnd b = false

/-- The bytes of a plain field are ordinary text.  What divides, quotes or ends a field is a byte
below 128, and would be a character of its own. -/
theorem areOrdinary_encode {s : String} (h : IsPlain s) : AreOrdinary (encode s) := by
  intro b hb
  -- Each of the bytes that are not ordinary would be a character of the text.
  have hne {c : Char} (hc : c ∈ [',', '"', '\n', '\r']) (hlt : c.toNat < 0x80) :
      b.toNat ≠ c.toNat := by
    intro heq
    obtain ⟨d, hd, hvalue⟩ := exists_of_mem_encode hb (by omega)
    obtain rfl : d = c := Char.toNat_inj.mp (hvalue.trans heq)
    exact h.undivided d hd hc
  have hbyte {c : Char} {m : UInt8} (hm : m.toNat = c.toNat) (h : b.toNat ≠ c.toNat) : b ≠ m := by
    rintro rfl
    exact h hm
  refine ⟨hbyte (c := '"') rfl (hne (by decide) (by decide)),
    hbyte (c := ',') rfl (hne (by decide) (by decide)), ?_⟩
  rw [isLineEnd, Bool.or_eq_false_iff, beq_eq_false_iff_ne, beq_eq_false_iff_ne]
  exact ⟨hbyte (c := '\n') rfl (hne (by decide) (by decide)),
    hbyte (c := '\r') rfl (hne (by decide) (by decide))⟩

/-- What is a blank among the bytes is one among the characters. -/
theorem isBlank_of_isAsciiBlank {b : UInt8} {c : Char} (h : isAsciiBlank b = true)
    (hc : b.toNat = c.toNat) : Text.isBlank c = true := by
  simp only [isAsciiBlank, Bool.or_eq_true, beq_iff_eq] at h
  unfold Text.isBlank
  rw [← hc]
  rcases h with (((rfl | rfl) | rfl) | rfl) | rfl <;> rfl

/-- A character that is no blank neither begins nor ends with the byte of one.  So trimming the
bytes of a field trims no part of a character. -/
theorem isAsciiBlank_of_mem {b : UInt8} {c : Char} (hb : b ∈ String.utf8EncodeChar c)
    (hc : Text.isBlank c = false) : isAsciiBlank b = false := by
  by_contra h
  rw [Bool.not_eq_false] at h
  have hlt : b.toNat < 0x80 := by
    simp only [isAsciiBlank, Bool.or_eq_true, beq_iff_eq] at h
    rcases h with (((rfl | rfl) | rfl) | rfl) | rfl <;> decide
  have hblank := isBlank_of_isAsciiBlank h (utf8EncodeChar_of_mem hb hlt).2
  exact Bool.false_ne_true (hc.symm.trans hblank)

/-- Nothing is cut off where the first byte is no blank. -/
theorem dropWhile_eq_self {bytes : List UInt8} (h : ∀ b ∈ bytes.head?, isAsciiBlank b = false) :
    bytes.dropWhile isAsciiBlank = bytes := by
  cases bytes with
  | nil => rfl
  | cons b bytes =>
      exact List.dropWhile_cons_of_neg (by rw [h b rfl]; exact Bool.false_ne_true)

/-- The bytes of a trimmed text are trimmed.  Its first byte belongs to its first character and its
last byte to its last one. -/
theorem trimAscii_encode {s : String} (h : IsTrim s.toList) : trimAscii (encode s) = encode s := by
  have hhead : ∀ b ∈ (encode s).head?, isAsciiBlank b = false := by
    intro b hb
    unfold encode at hb
    cases hs : s.toList with
    | nil =>
        rw [hs] at hb
        exact absurd hb (Option.not_mem_none _)
    | cons c cs =>
        rw [hs, List.flatMap_cons, List.head?_append_of_ne_nil _ String.utf8EncodeChar_ne_nil] at hb
        exact isAsciiBlank_of_mem (List.mem_of_mem_head? hb) (h.head c (hs ▸ rfl))
  have hlast : ∀ b ∈ (encode s).getLast?, isAsciiBlank b = false := by
    intro b hb
    unfold encode at hb
    rcases List.eq_nil_or_concat s.toList with hs | ⟨cs, c, hs⟩
    · rw [hs] at hb
      exact absurd hb (Option.not_mem_none _)
    · rw [hs, List.concat_eq_append, List.flatMap_append, List.flatMap_singleton,
        List.getLast?_append_of_ne_nil _ String.utf8EncodeChar_ne_nil] at hb
      refine isAsciiBlank_of_mem (List.mem_of_getLast? hb) (h.last c ?_)
      rw [hs, List.concat_eq_append, List.getLast?_concat]
      rfl
  rw [trimAscii, dropWhile_eq_self hhead, dropWhile_eq_self, List.reverse_reverse]
  rwa [List.head?_reverse]

/-- **Plain fields are read back from their bytes**: they are trimmed of nothing, and their bytes
are those of characters. -/
theorem decodeFields_encode {fields : List String} (h : ∀ s ∈ fields, IsPlain s) (index : ℕ) :
    decodeFields index (fields.map encode) = .ok fields := by
  induction fields generalizing index with
  | nil => rfl
  | cons s fields ih =>
      obtain ⟨hs, hfields⟩ := List.forall_mem_cons.mp h
      rw [List.map_cons, decodeFields, trimAscii_encode hs.isTrim, decode?_encode]
      simp only [ih hfields]
      rw [Except.map, Text.trim, Text.trimBlanks_eq_self hs.isTrim, String.ofList_toList]

/-! ## Fields of a record -/

variable {mode : Mode} {field bytes rest : List UInt8} {before fs : List (List UInt8)}
  {place : Place} {e : UInt8}

/-- The reader is in plain text, or before its first byte. -/
def Mode.IsUnquoted (mode : Mode) : Prop := mode = .start ∨ mode = .plain

/-- Ordinary bytes are taken up into the field, whatever follows them.  The induction is on these
bytes. -/
theorem readFields_ordinary (hmode : mode.IsUnquoted) (h : AreOrdinary bytes)
    (field : List UInt8) (before : List (List UInt8)) (place : Place) (rest : List UInt8) :
    ∃ mode' place', mode'.IsUnquoted ∧ readFields mode field before place (bytes ++ rest) =
      readFields mode' (bytes.reverse ++ field) before place' rest := by
  induction bytes generalizing mode field place with
  | nil => exact ⟨mode, place, hmode, rfl⟩
  | cons b bytes ih =>
      obtain ⟨⟨hquote, hcomma, hend⟩, hbytes⟩ := List.forall_mem_cons.mp h
      have hstep : readFields mode field before place (b :: bytes ++ rest) =
          readFields .plain (b :: field) before (place.behind b) (bytes ++ rest) := by
        rw [List.cons_append, readFields]
        have hquote : (b == quote) = false := beq_eq_false_iff_ne.mpr hquote
        rcases hmode with rfl | rfl <;> simp [hquote, hcomma, hend]
      obtain ⟨mode', place', hmode', hread⟩ := ih (.inr rfl) hbytes (b :: field)
        (place.behind b)
      refine ⟨mode', place', hmode', ?_⟩
      rw [hstep, hread, List.reverse_cons, List.append_assoc, List.singleton_append]

/-- A comma ends a field. -/
theorem readFields_comma (hmode : mode.IsUnquoted) :
    readFields mode field before place (comma :: rest) =
      readFields .start [] (field.reverse :: before) (place.behind comma) rest := by
  have hquote : (comma == quote) = false := by decide
  rw [readFields]
  rcases hmode with rfl | rfl <;> simp [hquote]

/-- The end of a line ends a field and the record, unless it stands between quotes. -/
theorem readFields_lineEnd (hmode : mode.IsUnquoted) (he : isLineEnd e = true) :
    readFields mode field before place (e :: rest) =
      ((field.reverse :: before).reverse, place.behind e, rest) := by
  have hne {m : UInt8} (hm : isLineEnd m = false) : e ≠ m := by
    rintro rfl
    exact Bool.false_ne_true (hm.symm.trans he)
  have hquote : (e == quote) = false := beq_eq_false_iff_ne.mpr (hne (by decide))
  have hcomma : e ≠ comma := hne (by decide)
  rw [readFields]
  rcases hmode with rfl | rfl <;> simp [hquote, hcomma, he]

/-- **A line is read as its fields.**  The induction is on the fields; each is ordinary text with a
comma behind it, or with the end of the line behind the last one. -/
theorem readFields_line (hne : fs ≠ []) (h : ∀ f ∈ fs, AreOrdinary f) (he : isLineEnd e = true)
    (before : List (List UInt8)) (place : Place) (rest : List UInt8) :
    ∃ place', readFields .start [] before place ([comma].intercalate fs ++ e :: rest) =
      (before.reverse ++ fs, place', rest) := by
  induction fs generalizing before place with
  | nil => exact absurd rfl hne
  | cons f fs ih =>
      obtain ⟨hf, hfs⟩ := List.forall_mem_cons.mp h
      cases fs with
      | nil =>
          rw [List.intercalate_singleton]
          obtain ⟨mode', place', hmode', hread⟩ := readFields_ordinary (.inl rfl) hf [] before place
            (e :: rest)
          refine ⟨place'.behind e, ?_⟩
          rw [hread, readFields_lineEnd hmode' he, List.append_nil, List.reverse_reverse,
            List.reverse_cons]
      | cons g fs =>
          rw [List.intercalate_cons_cons, List.append_assoc, List.append_assoc,
            List.singleton_append]
          obtain ⟨mode', place', hmode', hread⟩ := readFields_ordinary (.inl rfl) hf [] before place
            (comma :: ([comma].intercalate (g :: fs) ++ e :: rest))
          obtain ⟨place'', hrest⟩ := ih (List.cons_ne_nil _ _) hfs (f :: before)
            (place'.behind comma)
          refine ⟨place'', ?_⟩
          rw [hread, readFields_comma hmode', List.append_nil, List.reverse_reverse, hrest,
            List.reverse_cons, List.append_assoc, List.singleton_append]

/-! ## Records of a text -/

/-- What ends lines is skipped, up to the first byte that does not. -/
theorem skipLineEnds_append {ends : List UInt8} (hends : ∀ b ∈ ends, isLineEnd b = true)
    (hbytes : ∀ b ∈ bytes.head?, isLineEnd b = false) (place : Place) :
    ∃ place', skipLineEnds place (ends ++ bytes) = (place', bytes) := by
  induction ends generalizing place with
  | nil =>
      refine ⟨place, ?_⟩
      cases bytes with
      | nil => rfl
      | cons b bytes =>
          rw [List.nil_append, skipLineEnds, hbytes b rfl]
          exact if_neg Bool.false_ne_true
  | cons b ends ih =>
      obtain ⟨hb, hends⟩ := List.forall_mem_cons.mp hends
      obtain ⟨place', hskip⟩ := ih hends (place.behind b)
      refine ⟨place', ?_⟩
      rw [List.cons_append, skipLineEnds, if_pos hb, hskip]

/-- The bytes of a line of two fields or more begin with no end of a line. -/
theorem head?_intercalate (hlength : 2 ≤ fs.length) (h : ∀ f ∈ fs, AreOrdinary f) :
    ∃ b bytes, [comma].intercalate fs = b :: bytes ∧ isLineEnd b = false := by
  match fs, hlength with
  | [] :: g :: fs, _ => exact ⟨comma, _, by rw [List.intercalate_cons_cons]; rfl, by decide⟩
  | (b :: f) :: g :: fs, _ =>
      have hf := h (b :: f) List.mem_cons_self b List.mem_cons_self
      exact ⟨b, _, by rw [List.intercalate_cons_cons_left], hf.2.2⟩

/-- **The records of lines are their fields**, also behind what is left of an earlier line.  A
carriage return ends a line, so that the line feed behind it is skipped before the next one. -/
theorem fields_readRecords {lines : List (List (List UInt8))} (ends : List UInt8)
    {ends' : List UInt8} {fuel number : ℕ}
    (h : ∀ fs ∈ lines, 2 ≤ fs.length ∧ ∀ f ∈ fs, AreOrdinary f)
    (hends : ∀ b ∈ ends, isLineEnd b = true) (he : isLineEnd e = true)
    (hends' : ∀ b ∈ ends', isLineEnd b = true) (hfuel : lines.length ≤ fuel) :
    (readRecords fuel number place (ends ++ lines.flatMap fun fs =>
      [comma].intercalate fs ++ e :: ends')).map Record.fields = lines := by
  induction lines generalizing fuel number place ends with
  | nil =>
      cases fuel with
      | zero => rfl
      | succ fuel =>
          have hnil : ∀ b ∈ ([] : List UInt8).head?, isLineEnd b = false := by simp
          obtain ⟨place', hskip⟩ := skipLineEnds_append hends hnil place
          rw [List.flatMap_nil, readRecords, hskip]
          rfl
  | cons fs lines ih =>
      obtain ⟨⟨hlength, hfs⟩, hlines⟩ := List.forall_mem_cons.mp h
      obtain ⟨fuel, rfl⟩ : ∃ n, fuel = n + 1 := ⟨fuel - 1, by rw [List.length_cons] at hfuel; omega⟩
      have hfuel : lines.length ≤ fuel := Nat.le_of_succ_le_succ hfuel
      obtain ⟨b, bytes, hhead, hb⟩ := head?_intercalate hlength hfs
      rw [List.flatMap_cons, List.append_assoc, List.cons_append]
      generalize hrest : (lines.flatMap fun fs => [comma].intercalate fs ++ e :: ends') = rest
        at ih ⊢
      have hfirst : ∀ d ∈ ([comma].intercalate fs ++ e :: (ends' ++ rest)).head?,
          isLineEnd d = false := by
        rw [hhead]
        exact fun d hd => Option.mem_some_iff.mp hd ▸ hb
      obtain ⟨place', hskip⟩ := skipLineEnds_append hends hfirst place
      obtain ⟨next, hread⟩ := readFields_line (List.ne_nil_of_length_pos (by omega)) hfs he []
        place' (ends' ++ rest)
      rw [readRecords, hskip, hhead, List.cons_append]
      simp only
      rw [← List.cons_append, ← hhead, hread]
      simp only [List.map_cons, List.reverse_nil, List.nil_append]
      rw [ih ends' hlines hends' hfuel]

variable {lineEnd : String} {rows : List (List String)}

/-- The bytes of fields between commas are the bytes of the fields, between the bytes of commas. -/
theorem encode_intercalate (fields : List String) :
    encode (",".intercalate fields) = [comma].intercalate (fields.map encode) := by
  induction fields with
  | nil => rw [String.intercalate_nil]; rfl
  | cons s fields ih =>
      cases fields with
      | nil => rw [String.intercalate_singleton, List.map_singleton, List.intercalate_singleton]
      | cons t fields =>
          rw [String.intercalate_cons_cons, encode_append, encode_append, ih, List.map_cons,
            List.map_cons, List.map_cons, List.intercalate_cons_cons]
          rfl

/-- The bytes of a text are those of its lines. -/
theorem encode_text (lineEnd : String) (rows : List (List String)) :
    encode (text lineEnd rows) = (rows.map (·.map encode)).flatMap fun fs =>
      [comma].intercalate fs ++ encode lineEnd := by
  induction rows with
  | nil => rfl
  | cons fields rows ih =>
      rw [text, List.map_cons, String.join_cons, encode_append, ← text, ih, line, encode_append,
        encode_intercalate, List.map_cons, List.flatMap_cons]

/-- Where no byte order mark stands before a text, it is read from its first byte. -/
theorem records_of_head (h : ∀ b ∈ bytes.head?, b ≠ 0xEF) :
    records bytes = readRecords bytes.length 0 ⟨1, 0⟩ bytes := by
  unfold records
  split
  · exact absurd rfl (h 0xEF rfl)
  · rfl

/-- **The records of a text are the fields of its lines**, whether a line ends with a line feed or
with a carriage return before it. -/
theorem fields_records_text (hend : lineEnd = "\n" ∨ lineEnd = "\r\n")
    (h : ∀ fields ∈ rows, 2 ≤ fields.length ∧ ∀ s ∈ fields, IsPlain s)
    (hmark : ∀ b ∈ (encode (text lineEnd rows)).head?, b ≠ 0xEF) :
    (records (encode (text lineEnd rows))).map Record.fields = rows.map (·.map encode) := by
  obtain ⟨e, ends, hencode, he, hends⟩ : ∃ e ends, encode lineEnd = e :: ends ∧
      isLineEnd e = true ∧ ∀ b ∈ ends, isLineEnd b = true := by
    rcases hend with rfl | rfl
    · exact ⟨10, [], rfl, rfl, List.forall_mem_nil _⟩
    · exact ⟨13, [10], rfl, rfl, List.forall_mem_singleton.mpr rfl⟩
  have hlines : ∀ fs ∈ rows.map (·.map encode), 2 ≤ fs.length ∧ ∀ f ∈ fs, AreOrdinary f := by
    refine List.forall_mem_map.mpr fun fields hfields => ?_
    obtain ⟨hlength, hplain⟩ := h fields hfields
    exact ⟨by rwa [List.length_map], List.forall_mem_map.mpr fun s hs =>
      areOrdinary_encode (hplain s hs)⟩
  -- Each line has a byte at least, so the bytes are fuel enough.
  have hfuel : (rows.map (·.map encode)).length ≤ (encode (text lineEnd rows)).length := by
    rw [encode_text, hencode]
    exact length_le_length_flatMap fun fs _ => by simp
  rw [records_of_head hmark, encode_text, hencode] at *
  exact fields_readRecords [] hlines (List.forall_mem_nil _) he hends hfuel

end CostBasis.Csv
