import CostBasis.Proofs.Csv.Lines
import CostBasis.Proofs.Decimal.Text
import CostBasis.Proofs.Position.TrailingZeros

/-!
# An export that is read back

An export has a line of column names and a line for each trade, with each column once and in any
order.  The column that says whether the order was in the book may be empty where it was not, and
missing where no order was.  What is read from it are the trades, in their order; only trailing
zeros of the decimals are not in the text.

The quote quantity stands in no column.  It is the product of two decimals that are read without
their trailing zeros, and these make no difference to a product.

Main statement: `export_read_back`.
-/

namespace CostBasis.Csv

open Text (IsTrim AreDigits integer digits)
open Text.Utf8

/-! ## What is written in a column -/

/-- The text of a trade in a column. -/
def Column.write (c : Column) (t : Trade) : String :=
  match c with
  | .id => integer t.id.toNat
  | .symbol => t.symbol
  | .orderId => integer t.orderId.toNat
  | .side => t.side.toText
  | .price => t.price.toText
  | .quantity => t.quantity.toText
  | .fee => t.fee.toText
  | .feeCurrency => t.feeCurrency
  | .time => integer t.time.milliseconds.toInt
  | .isMaker => if t.isMaker then "true" else "false"

/-- What may stand in a column for a trade. -/
inductive Column.Writes (t : Trade) : Column → String → Prop
  | value (c : Column) : Writes t c (c.write t)
  | noMaker (h : t.isMaker = false) : Writes t .isMaker ""

/-- What is to be read from a column. -/
def Column.cell (c : Column) (t : Trade) : Cell :=
  match c with
  | .id => .unsigned t.id
  | .symbol => .text t.symbol
  | .orderId => .unsigned t.orderId
  | .side => .text t.side.toText
  | .price => .text t.price.toText
  | .quantity => .text t.quantity.toText
  | .fee => .text t.fee.toText
  | .feeCurrency => .text t.feeCurrency
  | .time => .signed t.time.milliseconds
  | .isMaker => .bool t.isMaker

/-- Each column stands in the export once, and only the last one may be missing, if no order was in
the book. -/
structure IsLayout (columns : List Column) (ts : List Trade) : Prop where
  nodup : columns.Nodup
  mem : ∀ c, c ≠ .isMaker → c ∈ columns
  maker : .isMaker ∈ columns ∨ ∀ t ∈ ts, t.isMaker = false

/-- Columns that do for trades do for some of them. -/
theorem IsLayout.of_subset {columns : List Column} {ts us : List Trade} (h : IsLayout columns ts)
    (hsubset : us ⊆ ts) : IsLayout columns us :=
  ⟨h.nodup, h.mem, h.maker.imp_right fun hnone t ht => hnone t (hsubset ht)⟩

/-- The quote quantity is what the trade has by its price, and the texts need no quotes. -/
structure IsExportable (t : Trade) : Prop where
  priced : t.price.mul t.quantity = .ok t.quoteQuantity
  symbol : IsPlain t.symbol
  feeCurrency : IsPlain t.feeCurrency

/-! ## Plain fields -/

variable {s : String} {t : Trade} {c : Column} {columns : List Column} {ts : List Trade}
  {fields : List String}

/-- The characters of names and numbers. -/
def isWordChar (c : Char) : Bool := c.isAlphanum || c == '_' || c == '.' || c == '-'

/-- No character of a name or a number is blank, so nothing is trimmed from what is made of them. -/
theorem isBlank_of_isWordChar {c : Char} (h : isWordChar c = true) : Text.isBlank c = false := by
  have hrange : (48 ≤ c.toNat ∧ c.toNat ≤ 122) ∨ c = '_' ∨ c = '.' ∨ c = '-' := by
    simp only [isWordChar, Char.isAlphanum, Char.isAlpha, Char.isUpper, Char.isLower, Char.isDigit,
      Bool.or_eq_true, Bool.and_eq_true, decide_eq_true_eq, beq_iff_eq] at h
    rcases h with ((((h | h) | h) | rfl) | rfl) | rfl
    · have hlow : 65 ≤ c.toNat := h.1
      have hhigh : c.toNat ≤ 90 := h.2
      omega
    · have hlow : 97 ≤ c.toNat := h.1
      have hhigh : c.toNat ≤ 122 := h.2
      omega
    · have hlow : 48 ≤ c.toNat := h.1
      have hhigh : c.toNat ≤ 57 := h.2
      omega
    · exact .inr (.inl rfl)
    · exact .inr (.inr (.inl rfl))
    · exact .inr (.inr (.inr rfl))
  rcases hrange with hrange | rfl | rfl | rfl
  · exact Text.isBlank_of_visible (by omega) (by omega)
  · rfl
  · rfl
  · rfl

/-- Names and numbers need no quotes: no comma, no quote and no end of a line is among their
characters. -/
theorem isPlain_of_all (h : s.toList.all isWordChar = true) : IsPlain s := by
  have hword {c : Char} (hc : c ∈ s.toList) : isWordChar c = true := List.all_eq_true.mp h c hc
  constructor
  · intro c hc hmem
    have hc := hword hc
    simp only [List.mem_cons, List.not_mem_nil, or_false] at hmem
    rcases hmem with rfl | rfl | rfl | rfl <;> exact absurd hc (by decide)
  · exact Text.isTrim_of_forall fun c hc => isBlank_of_isWordChar (hword hc)

/-- A digit is a character of a number. -/
theorem isWordChar_of_isDigit {c : Char} (h : c.isDigit = true) : isWordChar c = true := by
  rw [isWordChar, Char.isAlphanum, h, Bool.or_true, Bool.true_or, Bool.true_or, Bool.true_or]

/-- The text of an integer needs no quotes, with a sign or without one. -/
theorem isPlain_integer (n : ℤ) : IsPlain (integer n) := by
  refine isPlain_of_all (List.all_eq_true.mpr fun c hc => ?_)
  have hdigits {c : Char} (hc : c ∈ digits n.natAbs) : isWordChar c = true :=
    isWordChar_of_isDigit (Text.areDigits_digits _ c hc)
  rw [integer, String.toList_ofList] at hc
  split at hc
  · rcases List.mem_cons.mp hc with rfl | hc
    · rfl
    · exact hdigits hc
  · exact hdigits hc

/-- The text of a decimal needs no quotes, since it is made of digits, a point and a sign. -/
theorem isPlain_toText (d : Decimal) : IsPlain d.toText := by
  refine isPlain_of_all (List.all_eq_true.mpr fun c hc => ?_)
  rw [Decimal.toText, String.toList_ofList, ← Decimal.toChars_positional] at hc
  rcases Positional.eq_of_mem_toChars hc with hc | rfl | ⟨-, hplus⟩ | ⟨rfl, -⟩
  · exact isWordChar_of_isDigit hc
  · rfl
  · exact absurd hplus d.isCanonical_positional.sign_ne_plus
  · rfl

/-- The name of a column needs no quotes. -/
theorem isPlain_name (c : Column) : IsPlain c.name := by
  refine isPlain_of_all ?_
  cases c <;> decide

/-- What is written in a column needs no quotes, if the texts of the trade do not.  The cases are
the columns. -/
theorem Column.Writes.isPlain (ht : IsExportable t) (h : Column.Writes t c s) : IsPlain s := by
  cases h with
  | noMaker _ => exact isPlain_of_all rfl
  | value =>
      cases c with
      | id => exact isPlain_integer _
      | symbol => exact ht.symbol
      | orderId => exact isPlain_integer _
      | side => cases h : t.side <;> rw [Column.write, h] <;> exact isPlain_of_all (by decide)
      | price => exact isPlain_toText _
      | quantity => exact isPlain_toText _
      | fee => exact isPlain_toText _
      | feeCurrency => exact ht.feeCurrency
      | time => exact isPlain_integer _
      | isMaker => cases h : t.isMaker <;> rw [Column.write, h] <;> exact isPlain_of_all (by decide)

/-- What is written for a trade needs no quotes anywhere. -/
theorem isPlain_of_writes (ht : IsExportable t)
    (h : List.Forall₂ (Column.Writes t) columns fields) : ∀ s ∈ fields, IsPlain s := by
  induction h with
  | nil => exact List.forall_mem_nil _
  | cons hwrites _ ih => exact List.forall_mem_cons.mpr ⟨hwrites.isPlain ht, ih⟩

/-! ## Reading a row -/

/-- The text of an integer is not that of a number in hexadecimal digits, which the reader would
take as well. -/
theorem readInteger_integer {α : Type}
    (read : List Char → Text.Numeral → Except Text.IntegerError α) (n : ℤ) :
    readInteger read (integer n).toList = read (integer n).toList .decimal := by
  unfold readInteger
  split
  · next heq =>
      have hx : 'x' ∈ (integer n).toList := heq ▸ by simp
      rw [integer, String.toList_ofList] at hx
      have hdigits : 'x' ∉ digits n.natAbs := (Text.areDigits_digits _).not_mem (by decide)
      split at hx
      · exact absurd ((List.mem_cons.mp hx).resolve_left (by decide)) hdigits
      · exact absurd hx hdigits
  · rfl

/-- An unsigned integer is read back from its column, up to the largest one. -/
theorem readUInt64_integer (n : UInt64) :
    readInteger Text.readUInt64 (integer n.toNat).toList = .ok n := by
  have htext : (integer n.toNat).toList = digits n.toNat := by
    rw [integer, String.toList_ofList, if_neg (by omega), Int.natAbs_natCast]
  rw [readInteger_integer, htext, Text.readUInt64, Text.readUnsigned_digits]
  · exact congrArg Except.ok UInt64.ofNat_toNat
  · have := n.toNat_lt
    simp only [UInt64.size]
    omega

/-- A signed integer is read back from its column, on both sides of zero. -/
theorem readInt64_integer (n : Int64) :
    readInteger Text.readInt64 (integer n.toInt).toList = .ok n := by
  have hlow := n.le_toInt
  have hhigh := n.toInt_lt
  rw [readInteger_integer, Text.readInt64, Text.readSigned_integer]
  · exact congrArg Except.ok (Int64.ofInt_toInt n)
  · simp only [UInt64.size]
    omega
  · simp only [UInt64.size]
    omega

/-- **What is written in a column is read back.**  The column that may be empty is read as it would
be with the word in it. -/
theorem Column.Writes.read (h : Column.Writes t c s) : c.read s = .ok (c.cell t) := by
  cases h with
  | noMaker h => rw [Column.read, Column.cell, h, if_pos rfl]
  | value =>
      cases c with
      | id => rw [Column.read, Column.write, readUInt64_integer]; rfl
      | orderId => rw [Column.read, Column.write, readUInt64_integer]; rfl
      | time => rw [Column.read, Column.write, readInt64_integer]; rfl
      | isMaker => cases h : t.isMaker <;> simp [Column.read, Column.write, Column.cell, h]
      | symbol | side | price | quantity | fee | feeCurrency => rfl

/-- The fields of a line are read as the cells of their columns.  The induction is on the fields,
with the columns that were seen; no column is there twice. -/
theorem readCells_writes (h : List.Forall₂ (Column.Writes t) columns fields)
    (hnodup : columns.Nodup) {seen : List (Column × Cell)}
    (hseen : ∀ c ∈ columns, ∀ cell ∈ seen, cell.1 ≠ c) (index : ℕ) :
    readCells (columns.map some) index fields seen =
      .ok ((columns.map fun c => (c, c.cell t)).reverse ++ seen) := by
  induction h generalizing index seen with
  | nil => rfl
  | @cons c s columns fields hwrites _ ih =>
      obtain ⟨hc, hnodup⟩ := List.nodup_cons.mp hnodup
      have hnew : ¬(seen.any fun cell => cell.1 == c) = true := by
        simpa using fun cell hmem => hseen c List.mem_cons_self (c, cell) hmem rfl
      rw [List.map_cons, readCells, if_neg hnew, hwrites.read]
      simp only
      rw [ih hnodup, List.map_cons, List.reverse_cons, List.append_assoc, List.singleton_append]
      intro d hd cell hcell
      rcases List.mem_cons.mp hcell with rfl | hcell
      · rintro rfl
        exact hc hd
      · exact hseen d (List.mem_cons_of_mem _ hd) cell hcell

/-- Each column that is there has its cell, wherever it stands in the line. -/
theorem lookup_cells (t : Trade) (columns : List Column) (c : Column) :
    (columns.map fun c => (c, c.cell t)).lookup c =
      if c ∈ columns then some (c.cell t) else none := by
  induction columns with
  | nil => rfl
  | cons d columns ih =>
      rw [List.map_cons, List.lookup_cons, ih]
      by_cases h : c = d
      · subst h
        simp
      · rw [beq_false_of_ne h]
        simp [h]

/-- The row that is written for a trade. -/
def Row.ofTrade (t : Trade) : Row where
  id := t.id
  symbol := t.symbol
  orderId := t.orderId
  side := t.side.toText
  price := t.price.toText
  quantity := t.quantity.toText
  fee := t.fee.toText
  feeCurrency := t.feeCurrency
  time := t.time.milliseconds
  isMaker := t.isMaker

/-- **The row of a trade is read from its line.**  The columns are looked up by their names, so
their order plays no part. -/
theorem Row.read_writes (h : List.Forall₂ (Column.Writes t) columns fields)
    (hcolumns : IsLayout columns [t]) :
    Row.read (.named (columns.map some)) fields = .ok (Row.ofTrade t) := by
  have hcells : Row.read (.named (columns.map some)) fields =
      Row.ofCells (columns.reverse.map fun c => (c, c.cell t)) := by
    rw [Row.read, readCells_writes h hcolumns.nodup (by simp), List.append_nil, List.map_reverse]
    rfl
  have hlookup {c : Column} (hc : c ≠ .isMaker) :
      (columns.reverse.map fun c => (c, c.cell t)).lookup c = some (c.cell t) := by
    rw [lookup_cells, if_pos (List.mem_reverse.mpr (hcolumns.mem c hc))]
  have hmaker : (columns.reverse.map fun c => (c, c.cell t)).lookup .isMaker =
      some (.bool t.isMaker) ∨ (columns.reverse.map fun c => (c, c.cell t)).lookup .isMaker =
        none ∧ t.isMaker = false := by
    rw [lookup_cells]
    by_cases hmem : .isMaker ∈ columns.reverse
    · exact .inl (if_pos hmem)
    · exact .inr ⟨if_neg hmem, hcolumns.maker.resolve_left (hmem <| List.mem_reverse.mpr ·) t
        (List.mem_singleton_self t)⟩
  rw [hcells, Row.ofCells, unsignedCell, unsignedCell, signedCell, textCell, textCell, textCell,
    textCell, textCell, textCell, hlookup (by decide), hlookup (by decide), hlookup (by decide),
    hlookup (by decide), hlookup (by decide), hlookup (by decide), hlookup (by decide),
    hlookup (by decide), hlookup (by decide)]
  rcases hmaker with hmaker | ⟨hmaker, hfalse⟩
  · rw [hmaker]
    rfl
  · rw [hmaker, Row.ofTrade, hfalse]
    rfl

/-! ## Reading an export -/

/-- What was read is handed on. -/
theorem lift_ok_bind {α β : Type} (a : α) (f : α → ExceptT QueryError (Except Fault) β) :
    (liftM (Except.ok a : Except QueryError α) >>= f) = f a := rfl

/-- The trade of a row is the one that is written, but for trailing zeros.  They are not in the text
of a decimal, and the quote quantity is the product of what was read. -/
theorem Row.toTrade_ofTrade (ht : IsExportable t) (line : ℕ) :
    ∃ u, (Row.ofTrade t).toTrade line = pure u ∧ t.Same u := by
  have hside : Side.ofText? t.side.toText = some t.side := by
    cases t.side <;> decide
  have hread (what : String) (d : Decimal) : readDecimal line what d.toText = .ok d.reduce := by
    rw [readDecimal, Decimal.ofText_toText]
    rfl
  have hproduct := Decimal.mul_same (Decimal.toRat_reduce t.price).symm
    (Decimal.toRat_reduce t.quantity).symm
  rw [ht.priced] at hproduct
  obtain ⟨quote, hmul, hquote⟩ : ∃ quote, t.price.reduce.mul t.quantity.reduce = .ok quote ∧
      t.quoteQuantity.Same quote := by
    generalize t.price.reduce.mul t.quantity.reduce = product at hproduct
    cases hproduct with
    | ok hquote => exact ⟨_, rfl, hquote⟩
  refine ⟨{ t with
    price := t.price.reduce
    quantity := t.quantity.reduce
    quoteQuantity := quote
    fee := t.fee.reduce }, ?_, { Trade.Same.refl t with
    price := (Decimal.toRat_reduce t.price).symm
    quantity := (Decimal.toRat_reduce t.quantity).symm
    quoteQuantity := hquote
    fee := (Decimal.toRat_reduce t.fee).symm }⟩
  unfold Row.toTrade Row.ofTrade
  simp only [hside, hread, Trade.priced]
  rw [lift_ok_bind, lift_ok_bind, lift_ok_bind, hmul]
  rfl

/-- The records of lines are read as their trades, one by one and in their order, and no line is
refused. -/
theorem readTrades_writes {rs : List Record} {rows : List (List String)}
    (hcolumns : IsLayout columns ts) (hts : ∀ t ∈ ts, IsExportable t)
    (hrows : List.Forall₂ (fun t fields => List.Forall₂ (Column.Writes t) columns fields) ts rows)
    (hrs : rs.map Record.fields = rows.map (·.map encode)) (n : ℕ) :
    ∃ us, readTrades (.named (columns.map some)) n rs = pure us ∧
      List.Forall₂ Trade.Same ts us := by
  induction hrows generalizing rs n with
  | nil =>
      obtain rfl := List.map_eq_nil_iff.mp hrs
      exact ⟨[], rfl, .nil⟩
  | @cons t fields ts rows hfields _ ih =>
      obtain ⟨r, rs, rfl, hr, hrs⟩ := List.map_eq_cons_iff.mp hrs
      obtain ⟨ht, hts⟩ := List.forall_mem_cons.mp hts
      obtain ⟨us, hread, hsame⟩ :=
        ih (hcolumns.of_subset (List.subset_cons_self t ts)) hts hrs (n + 1)
      obtain ⟨u, hu, hut⟩ := Row.toTrade_ofTrade ht n
      have hrow : Row.ofRecord (.named (columns.map some)) r = .ok (Row.ofTrade t) := by
        rw [Row.ofRecord, hr, decodeFields_encode (isPlain_of_writes ht hfields)]
        simp only [Row.read_writes hfields (hcolumns.of_subset (by simp))]
        rfl
      refine ⟨u :: us, ?_, .cons hut hsame⟩
      rw [readTrades, hrow, lift_ok_bind, hu, pure_bind, hread, pure_bind]

/-- The columns are found by their names, and none of the names is one that is passed over. -/
theorem header_ofFields (columns : List Column) :
    Header.ofFields ((columns.map Column.name).map encode) = .named (columns.map some) := by
  have hnames : (columns.map Column.name).map Column.ofName? = columns.map some := by
    rw [List.map_map]
    refine List.map_congr_left fun c _ => ?_
    cases c <;> rfl
  rw [Header.ofFields, decodeFields_encode]
  · simp only [hnames]
  · exact List.forall_mem_map.mpr fun c _ => isPlain_name c

/-- An export begins with a letter, so with no byte order mark that would have to be taken off. -/
theorem head?_encode_text (hlength : 2 ≤ columns.length) (lineEnd : String)
    (rows : List (List String)) :
    ∀ b ∈ (encode (text lineEnd (columns.map Column.name :: rows))).head?, b ≠ 0xEF := by
  match columns, hlength with
  | c :: d :: columns, _ =>
      obtain ⟨b, bytes, hname, hb⟩ : ∃ b bytes, encode c.name = b :: bytes ∧ b ≠ 0xEF := by
        cases c <;> exact ⟨_, _, rfl, by decide⟩
      rw [encode_text, List.map_cons, List.flatMap_cons, List.map_cons, List.map_cons,
        List.map_cons, List.map_cons, List.intercalate_cons_cons, hname]
      exact fun b' hb' => Option.some.inj hb' ▸ hb

/-- Each row is written for one of the trades, so it has as many fields as there are columns, and
none that needs quotes. -/
theorem isPlain_rows {rows : List (List String)} (hts : ∀ t ∈ ts, IsExportable t)
    (hrows : List.Forall₂ (fun t fields => List.Forall₂ (Column.Writes t) columns fields) ts rows) :
    ∀ fields ∈ rows, fields.length = columns.length ∧ ∀ s ∈ fields, IsPlain s := by
  induction hrows with
  | nil => exact List.forall_mem_nil _
  | cons hfields _ ih =>
      obtain ⟨ht, hts⟩ := List.forall_mem_cons.mp hts
      exact List.forall_mem_cons.mpr
        ⟨⟨hfields.length_eq.symm, isPlain_of_writes ht hfields⟩, ih hts⟩

/-- **An export is read back.**  Each trade is written on a line of its own below the names of the
columns, which are in any order; what was read are these trades, in this order.
Source: `parse_csv`. -/
theorem export_read_back {rows : List (List String)} {lineEnd : String}
    (hcolumns : IsLayout columns ts) (hts : ∀ t ∈ ts, IsExportable t)
    (hrows : List.Forall₂ (fun t fields => List.Forall₂ (Column.Writes t) columns fields) ts rows)
    (hend : lineEnd = "\n" ∨ lineEnd = "\r\n") :
    ∃ us, parseTrades (encode (text lineEnd (columns.map Column.name :: rows))) = pure us ∧
      List.Forall₂ Trade.Same ts us := by
  have hlength : 2 ≤ columns.length := by
    have hsubset : [Column.id, Column.symbol] ⊆ columns := by
      simp [hcolumns.mem]
    exact (List.Nodup.subperm (by decide) hsubset).length_le
  have hlines : ∀ fields ∈ columns.map Column.name :: rows,
      2 ≤ fields.length ∧ ∀ s ∈ fields, IsPlain s := by
    refine List.forall_mem_cons.mpr ⟨⟨by rwa [List.length_map], ?_⟩, fun fields hfields => ?_⟩
    · exact List.forall_mem_map.mpr fun c _ => isPlain_name c
    · obtain ⟨hcount, hplain⟩ := isPlain_rows hts hrows fields hfields
      exact ⟨hcount ▸ hlength, hplain⟩
  have hrecords := fields_records_text hend hlines (head?_encode_text hlength lineEnd rows)
  obtain ⟨first, rs, hfirst, hfields, hrs⟩ := List.map_eq_cons_iff.mp hrecords
  rw [parseTrades, hfirst]
  simp only [hfields, header_ofFields]
  exact readTrades_writes hcolumns hts hrows hrs 2

/-- A price with all the digits there are, trailing zeros in the quantity, the largest numbers, and
blanks inside the names. -/
def sampleFinePrice : Trade where
  id := 18446744073709551615
  symbol := "Δ BTC"
  orderId := 18446744073709551615
  side := .sell
  price := ⟨-79228162514264337593543950335, 28, by decide, Nat.le_refl Decimal.maxScale, by decide⟩
  quantity := ⟨1000, 3, by decide, by decide, by decide⟩
  quoteQuantity :=
    ⟨-79228162514264337593543950335, 28, by decide, Nat.le_refl Decimal.maxScale, by decide⟩
  fee := .zero
  feeCurrency := ""
  time := ⟨-9223372036854775808⟩
  isMaker := false

/-- The sample trade with an empty column, and another one, below columns from the last to the
first. -/
theorem export_read_back_sampleFinePrice :
    ∃ us, parseTrades (encode (text "\r\n" (Column.all.reverse.map Column.name ::
      [("" :: Column.all.reverse.tail.map (·.write sampleFinePrice)),
        Column.all.reverse.map (·.write { sampleTrade 2 .buy 100 1 1 with isMaker := true })])) ) =
          pure us ∧
      List.Forall₂ Trade.Same
        [sampleFinePrice, { sampleTrade 2 .buy 100 1 1 with isMaker := true }] us := by
  have hwrites (t : Trade) (columns : List Column) :
      List.Forall₂ (Column.Writes t) columns (columns.map (·.write t)) :=
    List.forall₂_map_right_iff.mpr (List.forall₂_same.mpr fun c _ => .value c)
  refine export_read_back ⟨by decide, fun c _ => by cases c <;> decide, .inl (by decide)⟩ ?_
    (.cons (.cons (.noMaker rfl) (hwrites _ _)) (.cons (hwrites _ _) .nil)) (.inr rfl)
  refine List.forall_mem_cons.mpr ⟨⟨by decide +kernel, ⟨?_, ?_⟩, isPlain_of_all (by decide)⟩,
    List.forall_mem_singleton.mpr
      ⟨by decide +kernel, isPlain_of_all (by decide), isPlain_of_all (by decide)⟩⟩
  · simp [sampleFinePrice]
  · exact ⟨fun c hc => Option.some.inj hc ▸ rfl, fun c hc => Option.some.inj hc ▸ rfl⟩

end CostBasis.Csv
