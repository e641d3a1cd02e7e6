import CostBasis.Proofs.Csv.Export

/-!
# The line of a row that is refused

A row without a valid side, price, quantity or fee is refused, and the refusal names a line.  It
counts the rows before it, and one line for the names of the columns.  The line on which the row
stands is never before the one that is named.  It is the one that is named if the records up to the
row stand on lines of their own, one directly below the other.  A line without characters, and the
end of a line inside a quoted field, move the row further down.

Main statements: `lines_records`, `flaw_line`.
-/

namespace CostBasis.Csv

open Text (integer)
open Text.Utf8

variable {bytes pre content rest : List UInt8} {place : Place} {b : UInt8}

/-! ## Lines of a text -/

/-- How many lines end in a text.  A carriage return right before a line feed ends the same line. -/
def lineEnds : List UInt8 → ℕ
  | [] => 0
  | b :: bytes => (if b = 10 ∨ b = 13 ∧ bytes.head? ≠ some 10 then 1 else 0) + lineEnds bytes

/-- Line ends are counted in two parts of a text, unless the second part begins in the middle of
one. -/
theorem lineEnds_append (h : rest.head? ≠ some 10) :
    lineEnds (bytes ++ rest) = lineEnds bytes + lineEnds rest := by
  induction bytes with
  | nil => rw [List.nil_append, lineEnds, Nat.zero_add]
  | cons b bytes ih =>
      have hhead : (bytes ++ rest).head? = some 10 ↔ bytes.head? = some 10 := by
        cases bytes with
        | nil => simpa using h
        | cons c bytes => rfl
      simp only [List.cons_append, lineEnds, ih, ne_eq, hhead, Nat.add_assoc]

/-- What ends lines ends at least one, be it a line feed, a carriage return or both. -/
theorem lineEnds_pos (h : ∃ e ∈ bytes, isLineEnd e = true) : 0 < lineEnds bytes := by
  induction bytes with
  | nil =>
      obtain ⟨e, he, -⟩ := h
      exact absurd he List.not_mem_nil
  | cons b bytes ih =>
      rw [lineEnds]
      by_cases hfeed : bytes.head? = some 10
      · refine Nat.add_pos_right _ (ih ⟨10, List.mem_of_mem_head? hfeed, rfl⟩)
      · obtain ⟨e, he, hend⟩ := h
        rcases List.mem_cons.mp he with rfl | he
        · rw [isLineEnd, Bool.or_eq_true, beq_iff_eq, beq_iff_eq] at hend
          rw [if_pos (hend.imp_right fun hreturn => ⟨hreturn, hfeed⟩)]
          exact Nat.add_pos_left Nat.one_pos _
        · exact Nat.add_pos_right _ (ih ⟨e, he, hend⟩)

/-- The lines that end in the beginning of a text end in the text.  A carriage return at the end of
the beginning may go on in a line feed, and is one line end either way. -/
theorem lineEnds_le_append (bytes rest : List UInt8) :
    lineEnds bytes ≤ lineEnds (bytes ++ rest) := by
  by_cases h : rest.head? = some 10
  · -- Only the last byte may count no more, and then the line feed behind it counts.
    induction bytes with
    | nil => exact Nat.zero_le _
    | cons b bytes ih =>
        rw [List.cons_append, lineEnds, lineEnds]
        cases bytes with
        | nil =>
            have hpos : 0 < lineEnds rest := lineEnds_pos ⟨10, List.mem_of_mem_head? h, rfl⟩
            rw [List.nil_append, lineEnds]
            split_ifs <;> omega
        | cons c bytes => exact Nat.add_le_add_left ih _
  · rw [lineEnds_append h]
    exact Nat.le_add_right _ _

/-- Where the first field of a record begins, behind the line ends that are skipped. -/
def Record.start (bytes : List UInt8) (r : Record) : ℕ :=
  r.place.byte + ((bytes.drop r.place.byte).takeWhile isLineEnd).length

/-- The line of a text on which a record begins, the first line being 1. -/
def Record.line (bytes : List UInt8) (r : Record) : ℕ :=
  lineEnds (bytes.take (r.start bytes)) + 1

/-! ## What is read for a record -/

/-- A byte counts as one. -/
@[simp] theorem Place.byte_behind (p : Place) (b : UInt8) : (p.behind b).byte = p.byte + 1 := rfl

/-- What is skipped is the bytes that end lines, all there are at that place, and the place moves on
by as many. -/
theorem skipLineEnds_eq (place : Place) (bytes : List UInt8) :
    (skipLineEnds place bytes).1.byte = place.byte + (bytes.takeWhile isLineEnd).length ∧
      (skipLineEnds place bytes).2 = bytes.dropWhile isLineEnd := by
  induction bytes generalizing place with
  | nil => exact ⟨rfl, rfl⟩
  | cons b bytes ih =>
      rw [skipLineEnds]
      split
      · next hb =>
          rw [List.takeWhile_cons_of_pos hb, List.dropWhile_cons_of_pos hb, List.length_cons]
          obtain ⟨hbyte, hrest⟩ := ih (place.behind b)
          exact ⟨by rw [hbyte, Place.byte_behind]; omega, hrest⟩
      · next hb =>
          rw [List.takeWhile_cons_of_neg hb, List.dropWhile_cons_of_neg hb]
          exact ⟨rfl, rfl⟩

/-- The bytes up to the next record, and the place behind them.  Unless the text ends with them,
there is the end of a line among them. -/
structure Consumes (place : Place) (bytes content : List UInt8) (next : Place)
    (rest : List UInt8) : Prop where
  bytes_eq : bytes = content ++ rest
  byte_eq : next.byte = place.byte + content.length
  lineEnd : rest ≠ [] → ∃ e ∈ content, isLineEnd e = true

/-- One more byte is read before the others. -/
theorem Consumes.cons {next : Place} (h : Consumes (place.behind b) bytes content next rest) :
    Consumes place (b :: bytes) (b :: content) next rest where
  bytes_eq := by rw [h.bytes_eq, List.cons_append]
  byte_eq := by rw [h.byte_eq, Place.byte_behind, List.length_cons]; omega
  lineEnd hrest := by
    obtain ⟨e, he, hend⟩ := h.lineEnd hrest
    exact ⟨e, List.mem_cons_of_mem b he, hend⟩

/-- The fields of a record are read from the bytes up to the end of a line.  The induction is that
of the reader; in each of its ways one byte is read. -/
theorem exists_consumes (mode : Mode) (field : List UInt8) (fields : List (List UInt8))
    (place : Place) (bytes : List UInt8) :
    ∃ content, Consumes place bytes content (readFields mode field fields place bytes).2.1
      (readFields mode field fields place bytes).2.2 := by
  induction bytes generalizing mode field fields place with
  | nil => exact ⟨[], rfl, rfl, fun h => absurd rfl h⟩
  | cons b bytes ih =>
      have hgoes (mode : Mode) (field : List UInt8) (fields : List (List UInt8)) :
          ∃ content, Consumes place (b :: bytes) content
            (readFields mode field fields (place.behind b) bytes).2.1
            (readFields mode field fields (place.behind b) bytes).2.2 := by
        obtain ⟨content, h⟩ := ih mode field fields (place.behind b)
        exact ⟨b :: content, h.cons⟩
      rw [readFields]
      split_ifs with _ _ _ _ _ hend
      · exact hgoes _ _ _
      · exact hgoes _ _ _
      · exact hgoes _ _ _
      · exact hgoes _ _ _
      · exact hgoes _ _ _
      · exact ⟨[b], rfl, rfl, fun _ => ⟨b, List.mem_singleton_self b, hend⟩⟩
      · exact hgoes _ _ _

/-! ## The lines of records -/

/-- There are no records in an empty text. -/
theorem readRecords_nil (fuel number : ℕ) (place : Place) :
    readRecords fuel number place [] = [] := by
  cases fuel <;> rfl

/-- What is read for one record, behind the line ends that are skipped, and what is left for the
records behind it. -/
theorem readRecords_succ (fuel number : ℕ) (place : Place) (bytes : List UInt8) :
    readRecords (fuel + 1) number place bytes = [] ∨
      ∃ fields next content rest,
        readRecords (fuel + 1) number place bytes =
          ⟨number, place, fields⟩ :: readRecords fuel (number + 1) next rest ∧
        Consumes place bytes (bytes.takeWhile isLineEnd ++ content) next rest ∧
        content.head? ≠ some 10 ∧ (rest ≠ [] → ∃ e ∈ content, isLineEnd e = true) := by
  obtain ⟨hfirst, hbody⟩ := skipLineEnds_eq place bytes
  rw [readRecords]
  split
  · exact .inl rfl
  · next first body _ hskip =>
      rw [hskip] at hfirst hbody
      simp only at hfirst hbody
      obtain ⟨content, hcontent⟩ := exists_consumes .start [] [] first body
      generalize readFields .start [] [] first body = read at hcontent ⊢
      refine .inr ⟨read.1, read.2.1, content, read.2.2, rfl, ⟨?_, ?_, ?_⟩, ?_, hcontent.lineEnd⟩
      · rw [List.append_assoc, ← hcontent.bytes_eq, hbody, List.takeWhile_append_dropWhile]
      · rw [hcontent.byte_eq, hfirst, List.length_append, Nat.add_assoc]
      · intro hrest
        obtain ⟨e, he, hend⟩ := hcontent.lineEnd hrest
        exact ⟨e, List.mem_append_right _ he, hend⟩
      · intro hhead
        have hdrop := List.head?_dropWhile_not isLineEnd bytes
        rw [← hbody, hcontent.bytes_eq, List.head?_append, hhead] at hdrop
        exact Bool.false_ne_true hdrop.symm

/-- Behind bytes that are skipped, a record begins on the line that they lead to.  Lines are counted
from one. -/
theorem line_mk (hplace : place.byte = pre.length) (bytes : List UInt8) (number : ℕ)
    (fields : List (List UInt8)) :
    Record.line (pre ++ bytes) ⟨number, place, fields⟩ =
      lineEnds (pre ++ bytes.takeWhile isLineEnd) + 1 := by
  have htake : bytes.take (bytes.takeWhile isLineEnd).length = bytes.takeWhile isLineEnd :=
    (List.prefix_iff_eq_take.mp (List.takeWhile_prefix _)).symm
  rw [Record.line, Record.start]
  simp only [hplace]
  rw [List.drop_left, List.take_append, Nat.add_sub_cancel_left, htake,
    List.take_of_length_le (Nat.le_add_right _ _)]

/-- **Each record begins on a later line** than the one before it, and behind what was read.  The
invariant is that the place counts the bytes that were read. -/
theorem lines_readRecords (fuel number : ℕ) (pre bytes : List UInt8)
    (hplace : place.byte = pre.length) :
    (∀ r ∈ readRecords fuel number place bytes, lineEnds pre < r.line (pre ++ bytes)) ∧
      ((readRecords fuel number place bytes).map (·.line (pre ++ bytes))).Pairwise (· < ·) := by
  induction fuel generalizing number place bytes pre with
  | zero => exact ⟨List.forall_mem_nil _, .nil⟩
  | succ fuel ih =>
      rcases readRecords_succ fuel number place bytes with
        hread | ⟨fields, next, content, rest, hread, hconsumes, hhead, hends⟩
      · rw [hread]
        exact ⟨List.forall_mem_nil _, .nil⟩
      · rw [hread]
        have hline := line_mk hplace bytes number fields
        generalize bytes.takeWhile isLineEnd = ends at hconsumes hline
        have hle := lineEnds_le_append pre ends
        -- The records behind it stand behind these bytes.
        obtain ⟨hlater, hpairs⟩ := ih (number + 1) (pre ++ (ends ++ content)) rest
          (by rw [hconsumes.byte_eq, hplace, ← List.length_append])
        rw [List.append_assoc, ← hconsumes.bytes_eq] at hlater hpairs
        -- The line on which the record begins ends among them.
        have hlt : ∀ r ∈ readRecords fuel (number + 1) next rest,
            lineEnds (pre ++ ends) + 1 < r.line (pre ++ bytes) := by
          intro r hr
          have hrest : rest ≠ [] := by
            rintro rfl
            rw [readRecords_nil] at hr
            exact List.not_mem_nil hr
          have hpos := lineEnds_pos (hends hrest)
          have hr := hlater r hr
          rw [← List.append_assoc, lineEnds_append hhead] at hr
          omega
        refine ⟨List.forall_mem_cons.mpr ⟨by omega, fun r hr => ?_⟩,
          List.pairwise_cons.mpr
            ⟨List.forall_mem_map.mpr fun r hr => hline.trans_lt (hlt r hr), hpairs⟩⟩
        have := hlt r hr
        omega

/-- **Each record of a text begins on a later line than the one before it.** -/
theorem lines_records (bytes : List UInt8) :
    ((records bytes).map (·.line bytes)).Pairwise (· < ·) := by
  unfold records
  split
  · next rest => exact (lines_readRecords _ _ [0xEF, 0xBB, 0xBF] _ rfl).2
  · exact (lines_readRecords _ _ [] _ rfl).2

/-- Numbers that grow are at least as far apart as their places, and no further if they are in a
row. -/
theorem range'_of_pairwise {l : List ℕ} {n s : ℕ} (h : (l ++ [n]).Pairwise (· < ·))
    (hs : ∀ m ∈ l ++ [n], s ≤ m) :
    s + l.length ≤ n ∧ (n = s + l.length ↔ l ++ [n] = List.range' s (l.length + 1)) := by
  induction l generalizing s with
  | nil => exact ⟨hs n (List.mem_singleton_self n), by simp⟩
  | cons m l ih =>
      rw [List.cons_append] at h hs ⊢
      obtain ⟨hlt, h⟩ := List.pairwise_cons.mp h
      obtain ⟨hle, hiff⟩ := ih h hlt
      have hm := hs m List.mem_cons_self
      rw [List.length_cons]
      refine ⟨by omega, ?_⟩
      rw [List.range'_succ, List.cons.injEq]
      constructor
      · rintro rfl
        obtain rfl : m = s := by omega
        exact ⟨rfl, hiff.mp (by omega)⟩
      · rintro ⟨rfl, htail⟩
        have := hiff.mpr htail
        omega

/-! ## Rows that are refused -/

/-- What is wrong with the text of a decimal. -/
def decimalFlaw? (what field : String) : Option String :=
  match Decimal.ofText field with
  | .ok _ => none
  | .error e => some ("invalid " ++ what ++ ": " ++ e.message)

/-- The first thing that is wrong with a row whose columns have values of their types. -/
def Row.flaw? (row : Row) : Option String :=
  match Side.ofText? row.side with
  | none => some ("invalid side: " ++ row.side)
  | some _ =>
    (decimalFlaw? "price" row.price).or <|
      (decimalFlaw? "quantity" row.quantity).or (decimalFlaw? "fee" row.fee)

/-- The error that names a line. -/
def lineError (line : ℕ) (flaw : String) : QueryError :=
  .parse ("line " ++ integer line ++ ": " ++ flaw)

/-- What was refused is not handed on. -/
theorem lift_error_bind {α β : Type} (e : QueryError)
    (f : α → ExceptT QueryError (Except Fault) β) :
    (liftM (Except.error e : Except QueryError α) >>= f) = throw e := rfl

variable {line : ℕ} {what field flaw : String}

/-- A text that is no decimal is refused for its flaw, with the line that the reader was told. -/
theorem readDecimal_of_flaw (h : decimalFlaw? what field = some flaw) (line : ℕ) :
    readDecimal line what field = .error (lineError line flaw) := by
  unfold decimalFlaw? at h
  unfold readDecimal
  split at h
  · contradiction
  · next e he =>
      obtain rfl := Option.some.inj h
      have hinvalid : ": invalid " = ": " ++ "invalid " := rfl
      rw [he, lineError, hinvalid]
      simp only [String.append_assoc]
      rfl

/-- A decimal is refused for its flaw, or what comes behind it is for its own.  This is one of the
four checks of a row, and they are chained by it. -/
theorem readDecimal_bind {rest? : Option String} {α : Type}
    {f : Decimal → ExceptT QueryError (Except Fault) α}
    (h : (decimalFlaw? what field).or rest? = some flaw)
    (hrest : ∀ d, rest? = some flaw → f d = throw (lineError line flaw)) :
    (liftM (readDecimal line what field) >>= f) = throw (lineError line flaw) := by
  cases hflaw : decimalFlaw? what field with
  | some flaw =>
      rw [hflaw, Option.some_or] at h
      obtain rfl := Option.some.inj h
      rw [readDecimal_of_flaw hflaw, lift_error_bind]
  | none =>
      rw [hflaw, Option.none_or] at h
      unfold decimalFlaw? at hflaw
      unfold readDecimal
      split at hflaw
      · next d hd =>
          rw [hd]
          exact hrest d h
      · contradiction

/-- **A row is refused for the first thing that is wrong with it**, in the order of side, price,
quantity and fee. -/
theorem Row.toTrade_of_flaw {row : Row} (h : row.flaw? = some flaw) (line : ℕ) :
    row.toTrade line = throw (lineError line flaw) := by
  unfold Row.flaw? at h
  unfold Row.toTrade
  cases hside : Side.ofText? row.side with
  | none =>
      rw [hside] at h
      obtain rfl := Option.some.inj h
      have hinvalid : ": invalid side: " = ": " ++ "invalid side: " := rfl
      simp only [lineError, hinvalid, String.append_assoc]
  | some side =>
      rw [hside] at h
      exact readDecimal_bind h fun price h => readDecimal_bind h fun quantity h => by
        rw [readDecimal_of_flaw h, lift_error_bind]

/-- The first row of an export that is not read as a trade is the one of the record `r`, behind
those of the records `before`; it has values of their types in all columns, but `flaw` is wrong. -/
structure IsFirstFlaw (bytes : List UInt8) (header : Record) (before : List Record) (r : Record)
    (flaw : String) : Prop where
  records : ∃ after, records bytes = header :: (before ++ r :: after)
  before : ∃ ts, readTrades (Header.ofFields header.fields) 2 before = pure ts
  row : ∃ row, Row.ofRecord (Header.ofFields header.fields) r = .ok row ∧ row.flaw? = some flaw

/-- What has a value has values in all its parts. -/
theorem bind_eq_pure {α β : Type} {x : ExceptT QueryError (Except Fault) α}
    {f : α → ExceptT QueryError (Except Fault) β} {b : β} (h : x >>= f = pure b) :
    ∃ a, x = pure a ∧ f a = pure b := by
  rcases x with fault | e | a
  · contradiction
  · have h : (.ok (.error e) : Except Fault (Except QueryError β)) = .ok (.ok b) := h
    exact nomatch Except.ok.inj h
  · exact ⟨a, rfl, h⟩

/-- Records that are read as trades are followed by what comes behind them.  The line that is named
has moved on by one for each of them. -/
theorem readTrades_append {header : Header} {before after : List Record} {ts : List Trade}
    (h : readTrades header line before = pure ts) {e : QueryError}
    (hafter : readTrades header (line + before.length) after = throw e) :
    readTrades header line (before ++ after) = throw e := by
  induction before generalizing line ts with
  | nil => exact hafter
  | cons r before ih =>
      rw [readTrades] at h
      obtain ⟨row, hrow, h⟩ := bind_eq_pure h
      obtain ⟨t, ht, h⟩ := bind_eq_pure h
      obtain ⟨ts, hts, -⟩ := bind_eq_pure h
      rw [List.length_cons, Nat.add_comm before.length, ← Nat.add_assoc] at hafter
      rw [List.cons_append, readTrades, hrow, pure_bind, ht, pure_bind, ih hts hafter]
      rfl

/-- **The line that is named** counts the records from the names of the columns to the row.  The row
does not begin before this line; and it begins on it exactly if those records begin on the lines
1, 2, 3 and so on.
Source: `parse_csv`; specification, section A7, where the line is to be named. -/
theorem flaw_line {header r : Record} {before : List Record}
    (h : IsFirstFlaw bytes header before r flaw) :
    parseTrades bytes = throw (lineError (before.length + 2) flaw) ∧
      before.length + 2 ≤ r.line bytes ∧
      (r.line bytes = before.length + 2 ↔
        (header :: (before ++ [r])).map (·.line bytes) = List.range' 1 (before.length + 2)) := by
  obtain ⟨after, hrecords⟩ := h.records
  constructor
  · obtain ⟨ts, hts⟩ := h.before
    obtain ⟨row, hrow, hflaw⟩ := h.row
    rw [parseTrades, hrecords]
    refine readTrades_append hts ?_
    rw [readTrades, hrow, lift_ok_bind, Row.toTrade_of_flaw hflaw, Nat.add_comm]
    rfl
  · have hpairs := lines_records bytes
    have hsplit : header :: (before ++ r :: after) = (header :: before ++ [r]) ++ after := by simp
    rw [hrecords, hsplit, List.map_append, List.map_append, List.map_singleton] at hpairs
    have hlines := range'_of_pairwise (s := 1) (List.pairwise_append.mp hpairs).1 (by
      rw [← List.map_singleton, ← List.map_append]
      exact List.forall_mem_map.mpr fun _ _ => Nat.le_add_left 1 _)
    rw [List.length_map, List.length_cons] at hlines
    rw [← List.cons_append, List.map_append, List.map_singleton]
    have hlength : 1 + (before.length + 1) = before.length + 2 := by omega
    rwa [hlength] at hlines

/-- An export of two rows, of which the second one has a side that is no side.  `gap` is what stands
before the first one. -/
def sampleHold (gap : String) : List UInt8 :=
  encode ("id,symbol,order_id,side,price,quantity,fee,fee_currency,time_ms\n" ++ gap ++
    "1,BTCUSDT,1,buy,100,1,1,USDT,1000\n2,BTCUSDT,10,hold,100,1,0,USDT,1000\n")

/-- The record with the names of the columns. -/
def sampleHeader : Record := ⟨0, ⟨1, 0⟩, Column.all.dropLast.map fun c => encode c.name⟩

/-- The record of the first row. -/
def sampleFirst : Record :=
  ⟨1, ⟨2, 64⟩, ["1", "BTCUSDT", "1", "buy", "100", "1", "1", "USDT", "1000"].map encode⟩

/-- The record of the second row. -/
def sampleSecond (place : Place) : Record :=
  ⟨2, place, ["2", "BTCUSDT", "10", "hold", "100", "1", "0", "USDT", "1000"].map encode⟩

/-- What stands in the second row. -/
def sampleHeld : Row := ⟨2, "BTCUSDT", 10, "hold", "100", "1", "0", "USDT", 1000, false⟩

/-- The second row of the sample export is the first that is refused, wherever it stands. -/
theorem isFirstFlaw_sampleSecond (gap : String) (place : Place)
    (hrecords : records (sampleHold gap) = [sampleHeader, sampleFirst, sampleSecond place])
    (hrow : Row.ofRecord (Header.ofFields sampleHeader.fields) (sampleSecond place) =
      .ok sampleHeld) :
    IsFirstFlaw (sampleHold gap) sampleHeader [sampleFirst] (sampleSecond place)
      "invalid side: hold" where
  records := ⟨[], hrecords⟩
  before := by
    have hread : (readTrades (Header.ofFields sampleHeader.fields) 2 [sampleFirst]).run =
        .ok (.ok [sampleTrade 1 .buy 100 1 1]) := by decide +kernel
    exact ⟨[sampleTrade 1 .buy 100 1 1], ExceptT.ext hread⟩
  row := ⟨sampleHeld, hrow, by decide +kernel⟩

/-- Without a gap, the line that is named is the right one. -/
theorem flaw_line_sampleHold :
    IsFirstFlaw (sampleHold "") sampleHeader [sampleFirst] (sampleSecond ⟨3, 98⟩)
        "invalid side: hold" ∧
      parseTrades (sampleHold "") = throw (.parse "line 3: invalid side: hold") ∧
      (sampleSecond ⟨3, 98⟩).line (sampleHold "") = 3 := by
  have h := isFirstFlaw_sampleSecond "" ⟨3, 98⟩ (by decide +kernel) (by decide +kernel)
  obtain ⟨hparse, -, hline⟩ := flaw_line h
  exact ⟨h, hparse, hline.mpr (by decide +kernel)⟩

/-- **A blank line is not counted**: behind one, the line that is named is not the one on which the
row stands. -/
theorem flaw_line_missed_sampleHold :
    ¬∀ {bytes : List UInt8} {header r : Record} {before : List Record} {flaw : String},
      IsFirstFlaw bytes header before r flaw →
        parseTrades bytes = throw (lineError (r.line bytes) flaw) := by
  intro h
  have hparse := h (isFirstFlaw_sampleSecond "\n" ⟨4, 99⟩ (by decide +kernel) (by decide +kernel))
  have hnamed : (parseTrades (sampleHold "\n")).run =
      .ok (.error (.parse "line 3: invalid side: hold")) := by decide +kernel
  have hline : lineError ((sampleSecond ⟨4, 99⟩).line (sampleHold "\n")) "invalid side: hold" =
      .parse "line 4: invalid side: hold" := by decide +kernel
  rw [hparse, hline] at hnamed
  exact absurd (Except.ok.inj hnamed) (by decide)

end CostBasis.Csv
