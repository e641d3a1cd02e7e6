import CostBasis.Config
import CostBasis.Proofs.Position.Reversal
import CostBasis.Proofs.Text.Digits

/-!
# The currencies of a symbol

A symbol is the code of the base currency with the code of the quote currency behind it, and nothing
marks the place between them.  It is found by the quote currencies that are known, and of those that
a symbol ends in, the longest one is taken.

This finds the two codes again, but for one pair of known quote currencies of which one ends in the
other.  `BNBUSD` is `BNB` and `USD` as well as `BN` and `BUSD`; it is taken for the latter, and no
other rule could tell what was meant.

Main statements: `splitSymbol?_eq_some_iff`, `currencies_of_symbol`,
`currencies_mistaken_sampleBNBUSD`.
-/

namespace CostBasis

namespace Config

variable {s symbol base quote base' quote' ending rest : String} {env : Environment}

/-! ## Cutting off an ending -/

/-- Before an ending stands what was put before it, unless this is nothing: a quote currency alone
is no symbol. -/
theorem before?_append (hbase : base ≠ "") : before? (base ++ ending) ending = some base := by
  have hsuffix : ending.toList.isSuffixOf (base ++ ending).toList = true := by
    rw [List.isSuffixOf_iff_suffix, String.toList_append]
    exact List.suffix_append _ _
  have htake : (base ++ ending).toList.take
      ((base ++ ending).toList.length - ending.toList.length) = base.toList := by
    rw [String.toList_append, List.length_append, Nat.add_sub_cancel, List.take_left]
  have hne : ¬base.toList.isEmpty = true := by
    rwa [List.isEmpty_iff, String.toList_eq_nil_iff]
  rw [before?, if_pos hsuffix, htake, if_neg hne, String.ofList_toList]

/-- **What stands before an ending** is there and put before it gives the text.
Source: what `split_symbol` does with one quote currency. -/
theorem before?_eq_some_iff : before? s ending = some base ↔ s = base ++ ending ∧ base ≠ "" := by
  constructor
  · intro h
    unfold before? at h
    split at h
    next hsuffix =>
      obtain ⟨front, hfront⟩ := List.isSuffixOf_iff_suffix.mp hsuffix
      rw [← hfront, List.length_append, Nat.add_sub_cancel, List.take_left] at h
      dsimp only at h
      split at h
      next => cases h
      next hne =>
        obtain rfl := Option.some.inj h
        rw [List.isEmpty_iff] at hne
        constructor
        · rw [← String.toList_inj, String.toList_append, String.toList_ofList, hfront]
        · rwa [ne_eq, ← String.toList_eq_nil_iff, String.toList_ofList]
    next => cases h
  · rintro ⟨rfl, hbase⟩
    exact before?_append hbase

/-! ## The longest ending -/

/-- A symbol is made of a base currency and a known quote currency. -/
structure IsSplit (symbol base quote : String) : Prop where
  eq : symbol = base ++ quote
  base_ne : base ≠ ""
  known : quote ∈ knownQuoteCurrencies

/-- Before a quote currency of the symbol stands its base. -/
theorem IsSplit.before? (h : IsSplit symbol base quote) : before? symbol quote = some base :=
  before?_eq_some_iff.mpr ⟨h.eq, h.base_ne⟩

/-- Two ways to put a symbol together come to the same characters. -/
theorem IsSplit.toList_eq (h : IsSplit symbol base quote) (h' : IsSplit symbol base' quote') :
    base.toList ++ quote.toList = base'.toList ++ quote'.toList := by
  rw [← String.toList_append, ← String.toList_append, ← h.eq, ← h'.eq]

/-- Quote currencies of the same length are the same one, and so are the bases before them. -/
theorem IsSplit.unique (h : IsSplit symbol base quote) (h' : IsSplit symbol base' quote')
    (hlength : quote.length = quote'.length) : base = base' ∧ quote = quote' := by
  rw [← String.length_toList, ← String.length_toList] at hlength
  obtain ⟨hbase, hquote⟩ := List.append_inj' (h.toList_eq h') hlength
  exact ⟨String.toList_inj.mp hbase, String.toList_inj.mp hquote⟩

/-- Longer quote currencies are tried first, as the comment on the list says. -/
theorem knownQuoteCurrencies_sorted :
    knownQuoteCurrencies.Pairwise fun first second => second.length ≤ first.length := by
  decide

/-- What is found is an ending of the symbol, and no known one is longer.  It is the first one that
fits, and longer ones stand before it. -/
theorem longest_of_splitSymbol? (h : splitSymbol? symbol = some (base, quote)) :
    IsSplit symbol base quote ∧
      ∀ base' quote', IsSplit symbol base' quote' → quote'.length ≤ quote.length := by
  obtain ⟨before, found, after, hknown, hfound, hnone⟩ := List.findSome?_eq_some_iff.mp h
  obtain ⟨base, hbefore, hpair⟩ := Option.map_eq_some_iff.mp hfound
  obtain ⟨rfl, rfl⟩ := Prod.mk.inj hpair
  obtain ⟨heq, hbase⟩ := before?_eq_some_iff.mp hbefore
  have hmem : found ∈ knownQuoteCurrencies := hknown ▸ List.mem_append_right _ List.mem_cons_self
  have hsorted := knownQuoteCurrencies_sorted
  rw [hknown, List.pairwise_append, List.pairwise_cons] at hsorted
  obtain ⟨-, ⟨hafter, -⟩, -⟩ := hsorted
  refine ⟨⟨heq, hbase, hmem⟩, fun base' quote' h' => ?_⟩
  have hmem' := h'.known
  rw [hknown, List.mem_append, List.mem_cons] at hmem'
  rcases hmem' with htried | rfl | hlater
  · -- What has been tried before is no ending of the symbol.
    have hfailed := hnone quote' htried
    rw [h'.before?] at hfailed
    cases hfailed
  · exact le_rfl
  · exact hafter quote' hlater

/-- A symbol that is made of a base and a known quote currency is split in some way. -/
theorem IsSplit.exists_splitSymbol? (h : IsSplit symbol base quote) :
    ∃ base' quote', splitSymbol? symbol = some (base', quote') := by
  have hsome : (splitSymbol? symbol).isSome := by
    rw [splitSymbol?, List.findSome?_isSome_iff]
    exact ⟨quote, h.known, by rw [h.before?]; rfl⟩
  obtain ⟨⟨base', quote'⟩, hfound⟩ := Option.isSome_iff_exists.mp hsome
  exact ⟨base', quote', hfound⟩

/-- **A symbol is split before the longest known quote currency** that it ends in. -/
theorem splitSymbol?_eq_some_iff : splitSymbol? symbol = some (base, quote) ↔
    IsSplit symbol base quote ∧
      ∀ base' quote', IsSplit symbol base' quote' → quote'.length ≤ quote.length := by
  refine ⟨longest_of_splitSymbol?, fun ⟨hsplit, hmax⟩ => ?_⟩
  obtain ⟨base', quote', hfound⟩ := hsplit.exists_splitSymbol?
  obtain ⟨hsplit', hmax'⟩ := longest_of_splitSymbol? hfound
  obtain ⟨rfl, rfl⟩ := hsplit.unique hsplit' (le_antisymm (hmax' _ _ hsplit) (hmax _ _ hsplit'))
  exact hfound

/-! ## Symbols put together -/

/-- Dollars for a base that ends in a `B`, behind something else: the symbol ends in `BUSD` too. -/
def Outranked (base quote : String) : Prop :=
  quote = "USD" ∧ ∃ rest, rest ≠ "" ∧ base = rest ++ "B"

/-- One known quote currency ends in another one, and it is one letter longer.  Of any two others
none ends in the other. -/
theorem eq_or_busd_of_isSuffix : ∀ quote ∈ knownQuoteCurrencies,
    ∀ longer ∈ knownQuoteCurrencies, quote.toList <:+ longer.toList →
      quote = longer ∨ quote = "USD" ∧ longer = "BUSD" := by
  decide

/-- Only dollars are outranked by a longer quote currency, and only by the one with a letter before
them. -/
theorem IsSplit.outranked (h : IsSplit symbol base quote) (h' : IsSplit symbol base' quote')
    (hlt : quote.length < quote'.length) : Outranked base quote := by
  -- Both are endings of the symbol, so the longer one ends in the shorter one.
  have hsuffix : quote.toList <:+ quote'.toList := by
    refine List.suffix_of_suffix_length_le (List.suffix_append base.toList _) ?_ ?_
    · rw [h.toList_eq h']
      exact List.suffix_append _ _
    · rw [String.length_toList, String.length_toList]
      exact hlt.le
  rcases eq_or_busd_of_isSuffix _ h.known _ h'.known hsuffix with rfl | ⟨rfl, rfl⟩
  · exact absurd hlt (lt_irrefl _)
  · refine ⟨rfl, base', h'.base_ne, ?_⟩
    have hassoc : base ++ "USD" = base' ++ "B" ++ "USD" := by
      rw [← h.eq, h'.eq, String.append_assoc]
      rfl
    exact (String.append_left_inj "USD").mp hassoc

/-- **A base and a quote currency are found again** in their symbol, unless they are outranked. -/
theorem splitSymbol?_append (hbase : base ≠ "") (hquote : quote ∈ knownQuoteCurrencies)
    (h : ¬Outranked base quote) : splitSymbol? (base ++ quote) = some (base, quote) := by
  have hsplit : IsSplit (base ++ quote) base quote := ⟨rfl, hbase, hquote⟩
  refine splitSymbol?_eq_some_iff.mpr ⟨hsplit, fun base' quote' hsplit' => ?_⟩
  by_contra hlt
  exact h (hsplit.outranked hsplit' (not_le.mp hlt))

/-- Where they are outranked, the symbol is taken for one in `BUSD`. -/
theorem splitSymbol?_append_usd (hrest : rest ≠ "") :
    splitSymbol? (rest ++ "B" ++ "USD") = some (rest, "BUSD") := by
  rw [String.append_assoc]
  exact splitSymbol?_append hrest (by decide) fun h => absurd h.1 (by decide)

/-! ## Codes -/

/-- The code of a currency: there are characters, and none of them is a small letter or blank. -/
structure IsCode (code : String) : Prop where
  ne_empty : code ≠ ""
  upper : ∀ c ∈ code.toList, c.isLower = false
  solid : ∀ c ∈ code.toList, Text.isBlank c = false

/-- No capital letter is blank. -/
theorem isBlank_of_isUpper {c : Char} (h : c.isUpper = true) : Text.isBlank c = false := by
  rw [Char.isUpper, decide_eq_true_iff] at h
  have hlow : 65 ≤ c.toNat := h.1
  have hhigh : c.toNat ≤ 90 := h.2
  exact Text.isBlank_of_visible (by omega) (by omega)

/-- Capital letters make a code. -/
theorem isCode_of_all_isUpper (hne : s ≠ "") (h : s.toList.all Char.isUpper = true) :
    IsCode s where
  ne_empty := hne
  upper c hc := Bool.eq_false_iff.mpr (Char.not_isLower_of_isUpper (List.all_eq_true.mp h c hc))
  solid c hc := isBlank_of_isUpper (List.all_eq_true.mp h c hc)

/-- A known quote currency is a code. -/
theorem isCode_of_known (h : quote ∈ knownQuoteCurrencies) : IsCode quote := by
  have hupper : ∀ quote ∈ knownQuoteCurrencies,
      quote ≠ "" ∧ quote.toList.all Char.isUpper = true := by decide
  exact isCode_of_all_isUpper (hupper quote h).1 (hupper quote h).2

/-- Two codes put together are one, so a symbol is a code if its currencies are. -/
theorem IsCode.append (h : IsCode base) (h' : IsCode quote) : IsCode (base ++ quote) where
  ne_empty hempty := h.ne_empty (String.append_eq_empty_iff.mp hempty).1
  upper c hc := by
    rw [String.toList_append] at hc
    exact (List.mem_append.mp hc).elim (h.upper c) (h'.upper c)
  solid c hc := by
    rw [String.toList_append] at hc
    exact (List.mem_append.mp hc).elim (h.solid c) (h'.solid c)

/-- A code is read as it is: there is nothing to cut off and no letter to change. -/
theorem IsCode.upperCase_trim (h : IsCode base) : upperCase (Text.trim base) = base := by
  have hsame : ∀ c ∈ base.toList, c.toUpper = c := fun c hc =>
    Char.toUpper_eq_of_not_isLower (Bool.eq_false_iff.mp (h.upper c hc))
  have hupper : base.toList.map Char.toUpper = base.toList :=
    (List.map_congr_left hsame).trans (List.map_id' _)
  rw [Text.trim, Text.trimBlanks_eq_self (Text.isTrim_of_forall h.solid), String.ofList_toList,
    upperCase, hupper, String.ofList_toList]

/-! ## The settings -/

/-- So many places: those that the variable is the text of, or the default if it is not set. -/
def HasPlaces (env : Environment) (name : String) (otherwise places : UInt32) : Prop :=
  match env.lookup name with
  | none => places = otherwise
  | some text => Text.readUInt32 text.toList .decimal = .ok places

/-- The places are read, or are those that hold without the variable.
Source: `parse_u32`, with the default that `from_env_map` gives it. -/
theorem HasPlaces.readPrecision {name : String} {otherwise places : UInt32}
    (h : HasPlaces env name otherwise places) :
    readPrecision env name otherwise = .ok places := by
  unfold HasPlaces at h
  unfold Config.readPrecision
  cases hset : env.lookup name with
  | none =>
      rw [hset] at h
      exact congrArg Except.ok h.symm
  | some text =>
      rw [hset] at h
      dsimp only at h ⊢
      rw [h]

/-- Every variable that is not the symbol or one of its currencies makes sense. -/
structure OthersValid (env : Environment) : Prop where
  /-- There is a path. -/
  path : ∃ path, env.lookup "TRADES_CSV_PATH" = some path
  /-- There is a price, which is a decimal. -/
  price : ∃ text price, env.lookup "CURRENT_PRICE" = some text ∧ Decimal.ofText text = .ok price
  /-- A price and a quantity have no more places together than a decimal has. -/
  places : ∃ price volume, HasPlaces env "PRICE_PRECISION" 2 price ∧
    HasPlaces env "VOLUME_PRECISION" 8 volume ∧ price.toNat + volume.toNat ≤ 28
  /-- The first instant is an integer. -/
  since : ∀ text ∈ env.lookup "PNL_SINCE_MS",
    ∃ n, Text.readInt64 text.toList .decimal = .ok n
  /-- The format is known. -/
  format : ∀ text ∈ env.lookup "REPORT_FORMAT",
    lowerCase (Text.trim text) = "text" ∨ lowerCase (Text.trim text) = "json"

/-- The first instant is read, or is left open if the variable is not set. -/
theorem OthersValid.exists_readSince (h : OthersValid env) :
    ∃ since, readSince env = .ok since := by
  unfold readSince
  cases hset : env.lookup "PNL_SINCE_MS" with
  | none => exact ⟨none, rfl⟩
  | some text =>
      obtain ⟨n, hn⟩ := h.since text hset
      exact ⟨some ⟨n⟩, by dsimp only; rw [hn]⟩

/-- The format is read, in letters of either case and with blanks around it, or is the default. -/
theorem OthersValid.exists_readFormat (h : OthersValid env) :
    ∃ format, readFormat env = .ok format := by
  unfold readFormat
  cases hset : env.lookup "REPORT_FORMAT" with
  | none => exact ⟨.text, rfl⟩
  | some text =>
      rw [Option.map_some]
      dsimp only
      rcases h.format text hset with htext | hjson
      · exact ⟨.text, if_pos htext⟩
      · exact ⟨.json, by rw [hjson]; rfl⟩

/-- The currencies are those of the symbol, unless both are set.  One of them alone is not enough to
keep the symbol from being split. -/
theorem readCurrencies_of_unset
    (h : env.lookup "BASE_CURRENCY" = none ∨ env.lookup "QUOTE_CURRENCY" = none)
    (hsplit : splitSymbol? symbol = some (base, quote)) :
    readCurrencies env symbol = .ok (base, quote) := by
  unfold readCurrencies
  split
  next hbase hquote =>
    rw [hbase, hquote] at h
    exact absurd h (by simp)
  next => rw [hsplit]

/-- **There are settings** if the symbol has currencies and the other variables make sense.  The
variables are read one after another, and none of them is refused. -/
theorem exists_ofEnvironment (hcode : IsCode symbol) (hsymbol : env.lookup "SYMBOL" = some symbol)
    (hunset : env.lookup "BASE_CURRENCY" = none ∨ env.lookup "QUOTE_CURRENCY" = none)
    (hothers : OthersValid env) (hsplit : splitSymbol? symbol = some (base, quote)) :
    ∃ c, ofEnvironment env = .ok c ∧ c.symbol = symbol ∧ c.baseCurrency = base ∧
      c.quoteCurrency = quote := by
  obtain ⟨path, hpath⟩ := hothers.path
  obtain ⟨text, price, htext, hprice⟩ := hothers.price
  obtain ⟨pricePlaces, volumePlaces, hpricePlaces, hvolumePlaces, hle⟩ := hothers.places
  obtain ⟨since, hsince⟩ := hothers.exists_readSince
  obtain ⟨format, hformat⟩ := hothers.exists_readFormat
  have hfits : ¬Decimal.maxScale < pricePlaces.toNat + volumePlaces.toNat := not_lt.mpr hle
  refine ⟨⟨symbol, path, price, upperCase ((env.lookup "TRADING_FEE_CURRENCY").getD "BNB"), base,
    quote, pricePlaces, volumePlaces, since, format⟩, ?_, rfl, rfl, rfl⟩
  unfold ofEnvironment
  rw [hsymbol, Option.getD_some, hcode.upperCase_trim, if_neg hcode.ne_empty, hpath, htext,
    readCurrencies_of_unset hunset hsplit, hpricePlaces.readPrecision,
    hvolumePlaces.readPrecision, hsince, hformat]
  dsimp only
  rw [hprice]
  exact if_neg hfits

end Config

namespace Terms

variable {terms : Terms} {t : Trade}

/-- A fee in the quote currency is worth no warning. -/
theorem warning?_of_quoted (h : t.feeCurrency = terms.market.quoteCurrency) :
    terms.warning? t = none := by
  refine if_neg fun hunpriced => ?_
  unfold feeValuation at hunpriced
  rw [if_pos h] at hunpriced
  split at hunpriced <;> cases hunpriced

/-- Without exchange rates, a fee in a currency of another market counts nothing, and only a warning
is left of it. -/
theorem feeInQuote_of_foreign (hquote : t.feeCurrency ≠ terms.market.quoteCurrency)
    (hbase : t.feeCurrency ≠ terms.market.baseCurrency) (hrates : terms.rates = .unknown) :
    terms.feeInQuote t = .ok .zero := by
  unfold feeInQuote feeValuation
  rw [if_neg hquote, if_neg hbase, hrates]
  by_cases hzero : t.fee.isZero = true
  · rw [if_pos hzero]
  · rw [if_neg hzero]
    rfl

end Terms

open Config

/-- **The currencies of a symbol.**  The symbol is the code of a base currency with a known quote
currency behind it, the two currencies are not both set, and the other variables make sense.  Then
there are settings, and the currencies are the two that the symbol was put together from, unless
these are dollars behind a base that ends in a `B` and has more than this letter.  So fees in the
quote currency count as they are, whatever rates there are, and without a warning.  Such dollars are
taken for `BUSD`, which is longer, and the base loses its `B`.
Source: `split_symbol` and `from_env_map`. -/
theorem currencies_of_symbol {env : Environment} {base quote : String} (hbase : IsCode base)
    (hquote : quote ∈ knownQuoteCurrencies) (hsymbol : env.lookup "SYMBOL" = some (base ++ quote))
    (hunset : env.lookup "BASE_CURRENCY" = none ∨ env.lookup "QUOTE_CURRENCY" = none)
    (hothers : OthersValid env) :
    ∃ c, ofEnvironment env = .ok c ∧ c.symbol = base ++ quote ∧
      (¬Outranked base quote → c.baseCurrency = base ∧ c.quoteCurrency = quote ∧
        ∀ (rates : ExchangeRates) (t : Trade), t.feeCurrency = quote →
          (Terms.mk c.market rates).feeInQuote t = .ok t.fee ∧
          (Terms.mk c.market rates).warning? t = none) ∧
      ∀ rest, rest ≠ "" → base = rest ++ "B" → quote = "USD" →
        c.baseCurrency = rest ∧ c.quoteCurrency = "BUSD" := by
  have hcode := hbase.append (isCode_of_known hquote)
  by_cases houtranked : Outranked base quote
  · obtain ⟨rfl, rest, hrest, rfl⟩ := houtranked
    obtain ⟨c, hc, hname, hcbase, hcquote⟩ :=
      exists_ofEnvironment hcode hsymbol hunset hothers (splitSymbol?_append_usd hrest)
    refine ⟨c, hc, hname, fun h => absurd ⟨rfl, rest, hrest, rfl⟩ h, fun rest' _ heq _ => ?_⟩
    obtain rfl := (String.append_left_inj "B").mp heq
    exact ⟨hcbase, hcquote⟩
  · obtain ⟨c, hc, hname, hcbase, hcquote⟩ :=
      exists_ofEnvironment hcode hsymbol hunset hothers
        (splitSymbol?_append hbase.ne_empty hquote houtranked)
    refine ⟨c, hc, hname, fun _ => ⟨hcbase, hcquote, fun rates t ht => ?_⟩,
      fun rest hrest heq husd => absurd ⟨husd, rest, hrest, heq⟩ houtranked⟩
    have hquoted : t.feeCurrency = (Terms.mk c.market rates).market.quoteCurrency :=
      ht.trans hcquote.symm
    exact ⟨Terms.feeInQuote_of_quoted hquoted, Terms.warning?_of_quoted hquoted⟩

/-! ### Sample dollars -/

/-- Settings for a symbol, with all the places that there may be. -/
def sampleSettings (symbol : String) : Environment := [
  ("SYMBOL", symbol),
  ("TRADES_CSV_PATH", "trades.csv"),
  ("CURRENT_PRICE", "27000.5"),
  ("PRICE_PRECISION", "20"),
  ("PNL_SINCE_MS", "-1"),
  ("REPORT_FORMAT", " JSON ")]

/-- The sample settings make sense, whatever the symbol is. -/
theorem othersValid_sampleSettings (symbol : String) : OthersValid (sampleSettings symbol) where
  path := ⟨"trades.csv", rfl⟩
  price := ⟨"27000.5", ⟨270005, 1, by decide, by decide, by decide⟩, rfl, by decide +kernel⟩
  places := by
    have hprice : Text.readUInt32 "20".toList .decimal = .ok 20 := by decide +kernel
    exact ⟨20, 8, hprice, rfl, by decide⟩
  since text h := by
    obtain rfl := Option.some.inj h
    exact ⟨-1, by decide +kernel⟩
  format text h := by
    obtain rfl := Option.some.inj h
    exact .inr (by decide +kernel)

/-- A trade with a fee of one dollar. -/
def sampleDollarFee (symbol : String) : Trade :=
  { sampleTrade 1 .buy 600 1 1 with symbol, feeCurrency := "USD" }

/-- A symbol that is a known quote currency itself is one in dollars, and with one letter more it is
not. -/
theorem currencies_of_symbol_sampleDollars :
    (IsCode "B" ∧ ¬Outranked "B" "USD" ∧ OthersValid (sampleSettings "BUSD") ∧
      ∃ c, ofEnvironment (sampleSettings "BUSD") = .ok c ∧
        c.baseCurrency = "B" ∧ c.quoteCurrency = "USD" ∧
          (Terms.mk c.market .unknown).feeInQuote (sampleDollarFee "BUSD") = .ok .one) ∧
    IsCode "BB" ∧ OthersValid (sampleSettings "BBUSD") ∧
      ∃ c, ofEnvironment (sampleSettings "BBUSD") = .ok c ∧
        c.baseCurrency = "B" ∧ c.quoteCurrency = "BUSD" := by
  have hone : IsCode "B" := isCode_of_all_isUpper (by decide) (by decide)
  have htwo : IsCode "BB" := isCode_of_all_isUpper (by decide) (by decide)
  have husd : "USD" ∈ knownQuoteCurrencies := by decide
  have halone : ¬Outranked "B" "USD" := by
    rintro ⟨-, rest, hrest, heq⟩
    exact hrest ((String.append_left_inj "B").mp heq.symm)
  have hothers := othersValid_sampleSettings
  have hsymbol : (sampleSettings "BUSD").lookup "SYMBOL" = some ("B" ++ "USD") := rfl
  have hsymbol' : (sampleSettings "BBUSD").lookup "SYMBOL" = some ("BB" ++ "USD") := rfl
  obtain ⟨c, hc, -, hfound, -⟩ :=
    currencies_of_symbol hone husd hsymbol (.inl rfl) (hothers "BUSD")
  obtain ⟨c', hc', -, -, hmistaken⟩ :=
    currencies_of_symbol htwo husd hsymbol' (.inl rfl) (hothers "BBUSD")
  obtain ⟨hbase, hquote, hfees⟩ := hfound halone
  exact ⟨⟨hone, halone, hothers _, c, hc, hbase, hquote, (hfees .unknown _ rfl).1⟩,
    htwo, hothers _, c', hc', hmistaken "B" (by decide) rfl rfl⟩

/-- **A symbol is taken for another one.**  `BNB` for dollars is also `BN` for `BUSD`.  The settings
have the latter, and a fee of one dollar counts nothing. -/
theorem currencies_mistaken_sampleBNBUSD :
    IsCode "BNB" ∧ "USD" ∈ knownQuoteCurrencies ∧ "BNB" ++ "USD" = "BN" ++ "BUSD" ∧
    (sampleSettings ("BNB" ++ "USD")).lookup "BASE_CURRENCY" = none ∧
    (sampleSettings ("BNB" ++ "USD")).lookup "QUOTE_CURRENCY" = none ∧
    OthersValid (sampleSettings ("BNB" ++ "USD")) ∧
    ∃ c, ofEnvironment (sampleSettings ("BNB" ++ "USD")) = .ok c ∧
      c.baseCurrency = "BN" ∧ c.quoteCurrency = "BUSD" ∧
      (sampleDollarFee "BNBUSD").fee = .one ∧
        (Terms.mk c.market .unknown).feeInQuote (sampleDollarFee "BNBUSD") = .ok .zero := by
  have hbnb : IsCode "BNB" := isCode_of_all_isUpper (by decide) (by decide)
  have husd : "USD" ∈ knownQuoteCurrencies := by decide
  have hothers := othersValid_sampleSettings ("BNB" ++ "USD")
  have hsplit : splitSymbol? ("BN" ++ "B" ++ "USD") = some ("BN", "BUSD") :=
    splitSymbol?_append_usd (by decide)
  obtain ⟨c, hc, -, hbase, hquote⟩ :=
    exists_ofEnvironment (hbnb.append (isCode_of_known husd)) rfl (.inl rfl) hothers hsplit
  have hfee : (Terms.mk c.market .unknown).feeInQuote (sampleDollarFee "BNBUSD") = .ok .zero := by
    refine Terms.feeInQuote_of_foreign ?_ ?_ rfl
    · exact fun h => absurd (h.trans hquote) (by decide)
    · exact fun h => absurd (h.trans hbase) (by decide)
  exact ⟨hbnb, husd, rfl, rfl, rfl, hothers, c, hc, hbase, hquote, rfl, hfee⟩

end CostBasis
