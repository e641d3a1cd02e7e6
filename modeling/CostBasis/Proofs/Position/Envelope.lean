import CostBasis.Proofs.Position.Amount
import CostBasis.Proofs.Position.Tally

/-!
# Trades in the safe envelope

Plain trades have numbers of eight places that are not negative, and fees that are valued without
an exchange rate.  A list of trades is in the envelope if its trades are plain and its totals are
not above the ceiling, however many trades there are.

Main statements: `InEnvelope.of_append`, by which every part of such a list is in the envelope, and
`InEnvelope.amounts`, by which its single trades are of bounded size.
-/

namespace CostBasis

open Decimal

/-! ## Trades and totals -/

/-- The worth of the fee of a trade in the quote currency, which is not rounded here. -/
def Terms.feeWorth (terms : Terms) (t : Trade) : ℚ :=
  match terms.feeValuation t with
  | .free | .unpriced => 0
  | .quoted => t.fee.toRat
  | .converted rate => t.fee.toRat * rate.toRat

/-- A trade whose numbers are not negative and have eight places at most, and whose fee is in the
quote currency, in the base currency or in one without a rate. -/
structure Trade.Plain (terms : Terms) (t : Trade) : Prop where
  price_nonneg : 0 ≤ t.price.toRat
  price_grid : OnGrid 8 t.price.toRat
  quantity_pos : 0 < t.quantity.toRat
  quantity_grid : OnGrid 8 t.quantity.toRat
  fee_nonneg : 0 ≤ t.fee.toRat
  fee_grid : OnGrid 8 t.fee.toRat
  currency : t.fee.isZero = true ∨ t.feeCurrency = terms.market.quoteCurrency ∨
    t.feeCurrency = terms.market.baseCurrency ∨
      terms.rates.rate? t.feeCurrency terms.market.quoteCurrency = none

/-- The quote currency that trades move, with their fees. -/
def Terms.turnover (terms : Terms) (ts : List Trade) : ℚ :=
  (ts.map fun t => t.notional + terms.feeWorth t).sum

/-- The quantity that is bought and sold. -/
def volume (ts : List Trade) : ℚ := (ts.map fun t => t.quantity.toRat).sum

/-- The fees of all currencies, added up as they are. -/
def feeVolume (ts : List Trade) : ℚ := (ts.map fun t => t.fee.toRat).sum

/-- The trades are plain, and no total is above the ceiling. -/
structure InEnvelope (terms : Terms) (ts : List Trade) : Prop where
  plain : ∀ t ∈ ts, t.Plain terms
  turnover : terms.turnover ts ≤ ceiling
  volume : volume ts ≤ ceiling
  feeVolume : feeVolume ts ≤ ceiling

namespace Trade.Plain

variable {terms : Terms} {t : Trade}

/-- A plain trade has a notional that is not negative. -/
theorem notional_nonneg (h : t.Plain terms) : 0 ≤ t.notional :=
  mul_nonneg h.price_nonneg h.quantity_pos.le

/-- The notional of a plain trade has sixteen places, eight for the price and eight for the
quantity. -/
theorem notional_grid (h : t.Plain terms) : OnGrid 16 t.notional :=
  h.price_grid.mul h.quantity_grid

/-- The fee of a plain trade is worth nothing, itself, or itself at the price of the trade.  No
exchange rate is asked for, so no quotient is rounded.
Source: the branches of `fee_in_quote`. -/
theorem feeValuation_cases (h : t.Plain terms) :
    terms.feeValuation t = .free ∨ terms.feeValuation t = .unpriced ∨
      terms.feeValuation t = .quoted ∨ terms.feeValuation t = .converted t.price := by
  unfold Terms.feeValuation
  by_cases hfree : t.fee.isZero = true
  · exact .inl (if_pos hfree)
  rw [if_neg hfree]
  by_cases hquote : t.feeCurrency = terms.market.quoteCurrency
  · exact .inr (.inr (.inl (if_pos hquote)))
  rw [if_neg hquote]
  by_cases hbase : t.feeCurrency = terms.market.baseCurrency
  · exact .inr (.inr (.inr (if_pos hbase)))
  rw [if_neg hbase]
  obtain hfee | hfee | hfee | hrate := h.currency
  · exact absurd hfee hfree
  · exact absurd hfee hquote
  · exact absurd hfee hbase
  · rw [hrate]
    exact .inr (.inl rfl)

/-- The worth of the fee of a plain trade is not negative. -/
theorem feeWorth_nonneg (h : t.Plain terms) : 0 ≤ terms.feeWorth t := by
  unfold Terms.feeWorth
  obtain hv | hv | hv | hv := h.feeValuation_cases <;> rw [hv]
  · exact h.fee_nonneg
  · exact mul_nonneg h.fee_nonneg h.price_nonneg

/-- The worth of the fee of a plain trade has sixteen places, also where it is converted at the
price of the trade. -/
theorem feeWorth_grid (h : t.Plain terms) : OnGrid 16 (terms.feeWorth t) := by
  unfold Terms.feeWorth
  obtain hv | hv | hv | hv := h.feeValuation_cases <;> rw [hv]
  · exact OnGrid.zero
  · exact OnGrid.zero
  · exact h.fee_grid.mono (by norm_num)
  · exact h.fee_grid.mul h.price_grid

/-- The fee of a plain trade is valued without rounding, and without a fault, if it is not worth
more than the ceiling. -/
theorem exists_feeInQuote (h : t.Plain terms) (hworth : terms.feeWorth t ≤ ceiling) :
    ∃ fee, terms.feeInQuote t = .ok fee ∧ fee.toRat = terms.feeWorth t := by
  have hrepresentable : Representable (terms.feeWorth t) := by
    refine Amount.representable ⟨h.feeWorth_grid, le_rfl⟩ ?_
    rw [abs_of_nonneg h.feeWorth_nonneg]
    exact hworth.trans (by norm_num [ceiling])
  unfold Terms.feeInQuote
  unfold Terms.feeWorth at hrepresentable ⊢
  obtain hv | hv | hv | hv := h.feeValuation_cases <;> rw [hv] at hrepresentable ⊢
  · exact ⟨.zero, rfl, toRat_zero⟩
  · exact ⟨.zero, rfl, toRat_zero⟩
  · exact ⟨t.fee, rfl, rfl⟩
  · obtain ⟨fee, hmul, hfee, -⟩ :=
      exactProduct_of_representable (P := fun _ => True) hrepresentable fun _ _ => trivial
    exact ⟨fee, hmul, hfee⟩

end Trade.Plain

/-! ## Totals of a run -/

namespace InEnvelope

variable {terms : Terms} {ts us : List Trade} {t : Trade}

/-- The turnover of two lists is the sum of theirs. -/
theorem turnover_append (ts us : List Trade) :
    terms.turnover (ts ++ us) = terms.turnover ts + terms.turnover us := by
  simp [Terms.turnover]

/-- The volume of two lists is the sum of theirs. -/
theorem volume_append (ts us : List Trade) :
    CostBasis.volume (ts ++ us) = CostBasis.volume ts + CostBasis.volume us := by
  simp [CostBasis.volume]

/-- The fees of two lists are the sum of theirs. -/
theorem feeVolume_append (ts us : List Trade) :
    CostBasis.feeVolume (ts ++ us) = CostBasis.feeVolume ts + CostBasis.feeVolume us := by
  simp [CostBasis.feeVolume]

/-- No total of plain trades is negative, so the totals of a part are not above those of the
whole. -/
theorem totals_nonneg (h : ∀ t ∈ ts, t.Plain terms) :
    0 ≤ terms.turnover ts ∧ 0 ≤ CostBasis.volume ts ∧ 0 ≤ CostBasis.feeVolume ts := by
  refine ⟨List.sum_nonneg ?_, List.sum_nonneg ?_, List.sum_nonneg ?_⟩
  all_goals
    intro q hq
    obtain ⟨t, ht, rfl⟩ := List.mem_map.mp hq
  · exact add_nonneg (h t ht).notional_nonneg (h t ht).feeWorth_nonneg
  · exact (h t ht).quantity_pos.le
  · exact (h t ht).fee_nonneg

/-- A part of a run in the envelope is in it: the totals of the other part are not negative, so they
only take room. -/
theorem of_append (h : InEnvelope terms (ts ++ us)) :
    InEnvelope terms ts ∧ InEnvelope terms us := by
  have hts : ∀ t ∈ ts, t.Plain terms := fun t ht => h.plain t (List.mem_append_left us ht)
  have hus : ∀ t ∈ us, t.Plain terms := fun t ht => h.plain t (List.mem_append_right ts ht)
  have hturnover := h.turnover
  have hvolume := h.volume
  have hfees := h.feeVolume
  rw [turnover_append] at hturnover
  rw [volume_append] at hvolume
  rw [feeVolume_append] at hfees
  obtain ⟨h1, h2, h3⟩ := totals_nonneg hts
  obtain ⟨h1', h2', h3'⟩ := totals_nonneg hus
  exact ⟨⟨hts, by linarith, by linarith, by linarith⟩,
    ⟨hus, by linarith, by linarith, by linarith⟩⟩

/-- What a single trade in the envelope brings in: bounded amounts of everything that the
calculation starts from. -/
theorem amounts (h : InEnvelope terms [t]) :
    t.Plain terms ∧ Amount 16 ceiling t.notional ∧ terms.feeWorth t ≤ ceiling ∧
      Amount 16 ceiling (terms.feeWorth t) ∧ Amount 8 ceiling t.quantity.toRat ∧
        Amount 8 ceiling t.fee.toRat := by
  have ht := h.plain t (List.mem_singleton_self t)
  have hnotional := ht.notional_nonneg
  have hworth := ht.feeWorth_nonneg
  have hturnover : t.notional + terms.feeWorth t ≤ ceiling := by
    simpa [Terms.turnover] using h.turnover
  have hvolume : t.quantity.toRat ≤ ceiling := by simpa [CostBasis.volume] using h.volume
  have hfee : t.fee.toRat ≤ ceiling := by simpa [CostBasis.feeVolume] using h.feeVolume
  refine ⟨ht, ⟨ht.notional_grid, ?_⟩, by linarith, ⟨ht.feeWorth_grid, ?_⟩, ⟨ht.quantity_grid, ?_⟩,
    ⟨ht.fee_grid, ?_⟩⟩
  · rw [abs_of_nonneg hnotional]
    linarith
  · rw [abs_of_nonneg hworth]
    linarith
  · rwa [abs_of_nonneg ht.quantity_pos.le]
  · rwa [abs_of_nonneg ht.fee_nonneg]

end InEnvelope

/-! ## Deciding it -/

section decidable

variable (terms : Terms)

instance (t : Trade) : Decidable (t.Plain terms) :=
  decidable_of_iff (0 ≤ t.price.toRat ∧ OnGrid 8 t.price.toRat ∧ 0 < t.quantity.toRat ∧
      OnGrid 8 t.quantity.toRat ∧ 0 ≤ t.fee.toRat ∧ OnGrid 8 t.fee.toRat ∧
        (t.fee.isZero = true ∨ t.feeCurrency = terms.market.quoteCurrency ∨
          t.feeCurrency = terms.market.baseCurrency ∨
            terms.rates.rate? t.feeCurrency terms.market.quoteCurrency = none))
    ⟨fun ⟨h1, h2, h3, h4, h5, h6, h7⟩ => ⟨h1, h2, h3, h4, h5, h6, h7⟩,
      fun ⟨h1, h2, h3, h4, h5, h6, h7⟩ => ⟨h1, h2, h3, h4, h5, h6, h7⟩⟩

instance (ts : List Trade) : Decidable (InEnvelope terms ts) :=
  decidable_of_iff ((∀ t ∈ ts, t.Plain terms) ∧ terms.turnover ts ≤ ceiling ∧
      volume ts ≤ ceiling ∧ feeVolume ts ≤ ceiling)
    ⟨fun ⟨h1, h2, h3, h4⟩ => ⟨h1, h2, h3, h4⟩, fun ⟨h1, h2, h3, h4⟩ => ⟨h1, h2, h3, h4⟩⟩

end decidable

end CostBasis
