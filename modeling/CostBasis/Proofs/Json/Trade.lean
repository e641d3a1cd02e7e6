import CostBasis.Proofs.Json.Record
import CostBasis.Proofs.Position.TrailingZeros

/-!
# Trades through JSON

The text of a trade is always read as a record again, and everything in this record but the decimals
is what it was.  Whether the trade is the same one depends on its four decimals alone, and those of
fifteen digits are.

Main statements: `throughJson?_eq`, `survivesJson_iff`, `json_round_trip`.
-/

namespace CostBasis

open Json (read? write IsWritten ofMembers ofText ofInt Value required)

/-! ## Products -/

namespace Decimal

variable {a b d : Decimal} {q : ℚ} {s : ℕ}

/-- What is representable with all the places that are asked for is not given fewer. -/
theorem fit_of_roundAt? (h : roundAt? q s = some d) : fit q s = some d := by
  cases s with
  | zero => exact h
  | succ s => rw [fit, h]

/-- A product with few enough digits has them all: it is the product of the coefficients at the sum
of the scales. -/
theorem mul_eq_ofParts (hm : (a.coeff * b.coeff).natAbs < coeffBound)
    (hs : a.scale + b.scale ≤ maxScale) : a.mul b = .ok (ofParts (a.coeff * b.coeff) _ hm hs) := by
  have hunits : a.toRat * b.toRat * (Nat.pow 10 (a.scale + b.scale) : ℕ) =
      (a.coeff * b.coeff : ℤ) := by
    have ha := a.pow_scale_pos.ne'
    have hb := b.pow_scale_pos.ne'
    rw [toRat_eq_div, toRat_eq_div, Nat.pow_eq, pow_add]
    push_cast
    field_simp
  have hround : roundAt? (a.toRat * b.toRat) (a.scale + b.scale) =
      some (ofParts (a.coeff * b.coeff) _ hm hs) := by
    rw [roundAt?, hunits, Rounding.halfEven_intCast, ofParts?, dif_pos ⟨hm, hs⟩]
  rw [mul, fit_of_roundAt? hround]
  rfl

/-- A product of fifteen digits is short.  It is not rounded, so its digits are those of the product
of the coefficients. -/
theorem fitsJson_mul (hm : (a.coeff * b.coeff).natAbs < 10 ^ 15) (hs : a.scale + b.scale ≤ 22)
    (hmul : a.mul b = .ok d) : d.FitsJson := by
  rw [mul_eq_ofParts (hm.trans (by decide)) (hs.trans (by decide))] at hmul
  obtain rfl := Except.ok.inj hmul
  unfold ofParts
  split
  · decide
  · exact .inl ⟨hm, hs⟩

end Decimal

/-! ## The record of a trade -/

namespace Trade

variable {t t' : Trade}

/-- The fields of a trade, as they are written. -/
def members (t : Trade) : List (String × Value) := [
  ("id", ofInt t.id.toNat),
  ("symbol", ofText t.symbol),
  ("order_id", ofInt t.orderId.toNat),
  ("side", t.side.toJson),
  ("price", t.price.toJson),
  ("quantity", t.quantity.toJson),
  ("quote_quantity", t.quoteQuantity.toJson),
  ("fee", t.fee.toJson),
  ("fee_currency", ofText t.feeCurrency),
  ("time", t.time.toJson),
  ("is_maker", .bool t.isMaker)]

/-- The record of a trade is one of the values that writing and reading agree on: its numbers are
written as JSON has them, and its names are different. -/
theorem isWritten_toJson (t : Trade) : IsWritten t.toJson := by
  have hint (i : ℤ) : IsWritten (ofInt i) := Json.ofInt_eq i ▸ .number _
  have hdecimal (d : Decimal) : IsWritten d.toJson := by
    obtain ⟨n, hn⟩ := d.exists_literal
    exact hn ▸ .number n
  show IsWritten (ofMembers t.members)
  refine .object ?_
  simp only [members, List.forall_mem_cons]
  exact ⟨hint _, .string _, hint _, .string _, hdecimal _, hdecimal _, hdecimal _, hdecimal _,
    .string _, hint _, .bool _, List.forall_mem_nil _⟩

/-- The names of the fields. -/
def fieldNames : List String := ["id", "symbol", "order_id", "side", "price", "quantity",
  "quote_quantity", "fee", "fee_currency", "time", "is_maker"]

/-- No two fields have one name. -/
theorem nodup_fieldNames : fieldNames.Nodup := by decide

/-- The fields of a trade are found in its record, each under its name. -/
theorem fields?_toJson (t : Trade) :
    t.toJson.fields? fieldNames 1 = some (t.members.map fun m => some m.2) := by
  have hnames : (t.members.map Prod.fst).Nodup := nodup_fieldNames
  exact Json.fields?_ofMembers hnames 1

/-- **A trade is decoded from its record** by decoding its four decimals.  The other seven fields
are found as they were written. -/
theorem ofJson?_toJson (t : Trade) : ofJson? t.toJson =
    (Decimal.ofJson? t.price.toJson).bind fun price =>
    (Decimal.ofJson? t.quantity.toJson).bind fun quantity =>
    (Decimal.ofJson? t.quoteQuantity.toJson).bind fun quoteQuantity =>
    (Decimal.ofJson? t.fee.toJson).bind fun fee =>
    some { t with price, quantity, quoteQuantity, fee } := by
  have hint (n : UInt64) : required Value.toUInt64? (some (ofInt n.toNat)) = some n :=
    Json.toUInt64?_ofInt n
  have htext (s : String) : required Value.toText? (some (ofText s)) = some s :=
    Json.toText?_ofText s
  have hside : required Side.ofJson? (some t.side.toJson) = some t.side := t.side.ofJson?_toJson
  have htime : required Instant.ofJson? (some t.time.toJson) = some t.time :=
    t.time.ofJson?_toJson
  have hfields := t.fields?_toJson
  unfold fieldNames at hfields
  rw [ofJson?, hfields, Option.bind_eq_bind, Option.bind_some]
  dsimp only [members, List.map]
  rw [hint, hint, htext, htext, hside, htime]
  simp only [Option.bind_eq_bind, Option.bind_some, required, Value.toBool?, Option.pure_def]

/-! ## The round trip -/

/-- What is read from the text of a trade. -/
def throughJson? (t : Trade) : Option Trade := (read? (write .compact t.toJson)).bind ofJson?

/-- The record of a trade is read again. -/
theorem read?_toJson (t : Trade) : read? (write .compact t.toJson) = some t.toJson :=
  Json.read?_write Json.Layout.isBlank_compact t.isWritten_toJson

/-- To read the text of a trade is to decode its record, since the text is read as that record. -/
theorem throughJson?_eq (t : Trade) : t.throughJson? = ofJson? t.toJson := by
  rw [throughJson?, read?_toJson, Option.bind_some]

/-- The decimals of a trade. -/
def decimals (t : Trade) : List Decimal := [t.price, t.quantity, t.quoteQuantity, t.fee]

/-- The other fields are what they were.  A trade that comes back differs in its decimals at
most. -/
theorem eq_of_throughJson? (h : t.throughJson? = some t') :
    t' = { t with price := t'.price, quantity := t'.quantity,
                  quoteQuantity := t'.quoteQuantity, fee := t'.fee } := by
  rw [throughJson?_eq, ofJson?_toJson] at h
  obtain ⟨price, -, h⟩ := Option.bind_eq_some_iff.mp h
  obtain ⟨quantity, -, h⟩ := Option.bind_eq_some_iff.mp h
  obtain ⟨quoteQuantity, -, h⟩ := Option.bind_eq_some_iff.mp h
  obtain ⟨fee, -, h⟩ := Option.bind_eq_some_iff.mp h
  cases h
  rfl

/-- **The same trade is found again** exactly if each of its decimals is.  Nothing that happens to
one decimal depends on another one. -/
theorem survivesJson_iff (t : Trade) :
    (∃ t', t.throughJson? = some t' ∧ t'.Same t) ↔ ∀ d ∈ t.decimals, d.SurvivesJson := by
  rw [throughJson?_eq, ofJson?_toJson]
  simp only [decimals, List.forall_mem_cons]
  constructor
  · rintro ⟨t', h, hsame⟩
    obtain ⟨price, hprice, h⟩ := Option.bind_eq_some_iff.mp h
    obtain ⟨quantity, hquantity, h⟩ := Option.bind_eq_some_iff.mp h
    obtain ⟨quoteQuantity, hquote, h⟩ := Option.bind_eq_some_iff.mp h
    obtain ⟨fee, hfee, h⟩ := Option.bind_eq_some_iff.mp h
    cases h
    exact ⟨⟨price, hprice, hsame.price⟩, ⟨quantity, hquantity, hsame.quantity⟩,
      ⟨quoteQuantity, hquote, hsame.quoteQuantity⟩, ⟨fee, hfee, hsame.fee⟩, List.forall_mem_nil _⟩
  · rintro ⟨⟨price, hprice, hp⟩, ⟨quantity, hquantity, hq⟩, ⟨quoteQuantity, hquote, hqq⟩,
      ⟨fee, hfee, hf⟩, -⟩
    rw [hprice, hquantity, hquote, hfee]
    exact ⟨_, rfl, rfl, rfl, rfl, rfl, hp, hq, hqq, hf, rfl, rfl, rfl⟩

/-- **What JSON keeps of a trade.**  The text that is written for a trade is read as the record that
it was written for, and a trade that is decoded from it has the fields of the trade, but perhaps for
its decimals.  The same trade is decoded if and only if each of its decimals is found again, and
this is so if they have fifteen digits at most.  The product of price and quantity has no more if
the two have no more of them together.
Source: the serialization of `Trade` and of `Decimal`. -/
theorem json_round_trip {id orderId : UInt64} {symbol feeCurrency : String} {side : Side}
    {price quantity fee : Decimal} {time : Instant} {isMaker : Bool} {t : Trade}
    (ht : priced id symbol orderId side price quantity fee feeCurrency time isMaker = .ok t) :
    read? (write .compact t.toJson) = some t.toJson ∧
    (∀ t', t.throughJson? = some t' →
      t' = { t with price := t'.price, quantity := t'.quantity,
                    quoteQuantity := t'.quoteQuantity, fee := t'.fee }) ∧
    ((∃ t', t.throughJson? = some t' ∧ t'.Same t) ↔ ∀ d ∈ t.decimals, d.SurvivesJson) ∧
    ((∀ d ∈ t.decimals, d.FitsJson) → ∃ t', t.throughJson? = some t' ∧ t'.Same t) ∧
    ((price.coeff * quantity.coeff).natAbs < 10 ^ 15 → price.scale + quantity.scale ≤ 22 →
      t.quoteQuantity.FitsJson) := by
  refine ⟨t.read?_toJson, fun t' => eq_of_throughJson?, t.survivesJson_iff, fun hfits => ?_,
    fun hm hs => ?_⟩
  · exact t.survivesJson_iff.mpr fun d hd => (hfits d hd).survivesJson
  · obtain ⟨quoteQuantity, hmul, rfl⟩ := map_eq_ok.mp ht
    exact Decimal.fitsJson_mul hm hs hmul

/-- A trade at a price of fifteen digits, with a fee that is written with an exponent, and with
marks, a control character and an emoji in its symbol. -/
def sampleMarked : Trade where
  id := 18446744073709551615
  symbol := "B\"\\\u0001/€😀"
  orderId := 0
  side := .sell
  price := ⟨123456789012345, 6, by decide, by decide, by decide⟩
  quantity := .one
  quoteQuantity := ⟨123456789012345, 6, by decide, by decide, by decide⟩
  fee := ⟨-1234, 12, by decide, by decide, by decide⟩
  feeCurrency := ""
  time := ⟨-1⟩
  isMaker := true

/-- The sample trade is read again, with the largest number, an order of number zero, and a time
before the epoch. -/
theorem json_round_trip_sampleMarked :
    priced 18446744073709551615 "B\"\\\u0001/€😀" 0 .sell sampleMarked.price .one sampleMarked.fee ""
        ⟨-1⟩ true = .ok sampleMarked ∧
      (∀ d ∈ sampleMarked.decimals, d.FitsJson) ∧
      (sampleMarked.price.coeff * Decimal.one.coeff).natAbs < 10 ^ 15 ∧
      sampleMarked.price.scale + Decimal.one.scale ≤ 22 ∧
      ∃ t', sampleMarked.throughJson? = some t' ∧ t'.Same sampleMarked := by
  have ht : priced 18446744073709551615 "B\"\\\u0001/€😀" 0 .sell sampleMarked.price .one
      sampleMarked.fee "" ⟨-1⟩ true = .ok sampleMarked :=
    congrArg (Except.map _) (Decimal.mul_eq_ofParts (by decide) (by decide))
  obtain ⟨-, -, -, hsurvives, hproduct⟩ := json_round_trip ht
  have hdigits : (sampleMarked.price.coeff * Decimal.one.coeff).natAbs < 10 ^ 15 := by decide
  have hplaces : sampleMarked.price.scale + Decimal.one.scale ≤ 22 := by decide
  have hfits : ∀ d ∈ sampleMarked.decimals, d.FitsJson :=
    List.forall_mem_cons.mpr ⟨by decide, List.forall_mem_cons.mpr ⟨by decide,
      List.forall_mem_cons.mpr ⟨hproduct hdigits hplaces,
        List.forall_mem_singleton.mpr (by decide)⟩⟩⟩
  exact ⟨ht, hfits, hdigits, hplaces, hsurvives hfits⟩

/-- A trade with the seven places that an exchange gives to its numbers.  The product of price and
quantity is held with fourteen places, and so with sixteen digits. -/
def sampleSevenPlaces : Trade where
  id := 1
  symbol := "BTCUSDT"
  orderId := 1
  side := .buy
  price := ⟨322000000, 7, by decide, by decide, by decide⟩
  quantity := ⟨10000000, 7, by decide, by decide, by decide⟩
  quoteQuantity := ⟨3220000000000000, 14, by decide, by decide, by decide⟩
  fee := .zero
  feeCurrency := "USDT"
  time := ⟨1⟩
  isMaker := false

/-- **The sample trade is another one afterwards**: its quote quantity has become a larger one, by
one unit of the fourteenth place. -/
theorem json_round_trip_missed_sampleSevenPlaces :
    priced 1 "BTCUSDT" 1 .buy sampleSevenPlaces.price sampleSevenPlaces.quantity .zero "USDT" ⟨1⟩
        false = .ok sampleSevenPlaces ∧
      ∃ t', sampleSevenPlaces.throughJson? = some t' ∧ ¬t'.Same sampleSevenPlaces ∧
        t'.quoteQuantity.toRat - sampleSevenPlaces.quoteQuantity.toRat = 1 / 10 ^ 14 := by
  refine ⟨congrArg (Except.map _) (Decimal.mul_eq_ofParts (by decide) (by decide)), ?_⟩
  have hprice : Decimal.ofJson? sampleSevenPlaces.price.toJson =
      some ⟨322, 1, by decide, by decide, by decide⟩ := by decide +kernel
  have hquantity : Decimal.ofJson? sampleSevenPlaces.quantity.toJson = some .one := by
    decide +kernel
  have hquote : Decimal.ofJson? sampleSevenPlaces.quoteQuantity.toJson =
      some ⟨3220000000000001, 14, by decide, by decide, by decide⟩ := by decide +kernel
  have hfee : Decimal.ofJson? sampleSevenPlaces.fee.toJson = some .zero := by decide +kernel
  rw [throughJson?_eq, ofJson?_toJson, hprice, hquantity, hquote, hfee]
  refine ⟨_, rfl, fun hsame => ?_, by decide +kernel⟩
  exact absurd hsame.quoteQuantity (by decide +kernel)

end Trade

end CostBasis
