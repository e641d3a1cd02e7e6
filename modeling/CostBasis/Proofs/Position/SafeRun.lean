import CostBasis.Proofs.Position.Bounds

/-!
# Runs in the safe envelope

Prices, quantities and fees of eight places, and totals of no more than `10 ^ 11` of the quote
currency and of the base currency: in this envelope every run is exact, however long it is, in
whatever order and on whatever sides its trades come, and whatever the precision of the market.

Main statements: `exists_step_of_bounded` for one more trade of a run, and `safe_envelope`.
-/

namespace CostBasis

open Decimal

namespace Position

variable {p q : Position} {t : Trade} {terms : Terms} {fee : Decimal}

/-- The bounds of a position after trades are their totals. -/
def Bounded (terms : Terms) (ts : List Trade) (p : Position) : Prop :=
  p.Within (terms.turnover ts) (volume ts) (feeVolume ts)

/-- One more trade at the end of an exact run. -/
theorem AppliesAllExactly.append_singleton : (ts : List Trade) → (p : Position) →
    p.AppliesAllExactly terms ts →
      (∀ q, p.afterAll terms ts = .ok q → q.AppliesExactly terms t ∧
        Yields (q.after terms t) fun _ => True) → p.AppliesAllExactly terms (ts ++ [t])
  | [], p, _, hlast => by
      obtain ⟨happly, q, hafter, -⟩ := hlast p rfl
      exact ⟨happly, q, hafter, trivial⟩
  | u :: ts, p, ⟨happly, q, hafter, hrest⟩, hlast => by
      refine ⟨happly, q, hafter, append_singleton ts q hrest fun r hr => hlast r ?_⟩
      rw [afterAll_cons, hafter]
      exact hr

/-- One more trade of a run in the envelope, from the position that the others lead to.  It is
applied exactly, and the totals bound what it leads to. -/
theorem exists_step_of_bounded {ts : List Trade} (hts : InEnvelope terms (ts ++ [t]))
    (h : Bounded terms ts p) :
    p.AppliesExactly terms t ∧ ∃ fee q, terms.feeInQuote t = .ok fee ∧
      fee.toRat = terms.feeWorth t ∧ p.after terms t = .ok q ∧ p.ExactStep t fee q ∧
        Bounded terms (ts ++ [t]) q := by
  obtain ⟨hbefore, ht⟩ := hts.of_append
  obtain ⟨hplain, -, hworth, -⟩ := ht.amounts
  have happly := appliesExactly_of_within
    (Within.mono h hbefore.turnover hbefore.volume hbefore.feeVolume) ht
  obtain ⟨fee, q, hvalue, hafter, hstep⟩ :=
    exactStep_of_appliesExactly ((isPositive_iff _).mpr hplain.quantity_pos) happly
  obtain ⟨fee', hvalue', hfee⟩ := hplain.exists_feeInQuote hworth
  obtain rfl : fee' = fee := Except.ok.inj (hvalue'.symm.trans hvalue)
  refine ⟨happly, fee', q, hvalue, hfee, hafter, hstep, ?_⟩
  have hq := Within.step h hbefore.turnover hbefore.volume ht hfee hstep
  unfold Bounded
  rw [InEnvelope.turnover_append, InEnvelope.volume_append, InEnvelope.feeVolume_append]
  simpa [Terms.turnover, volume, feeVolume] using hq

/-- **Every run in the envelope is exact, and its position is bounded by its totals.**  The
induction adds one trade at the end: the run before it is in the envelope as well. -/
theorem exact_bounded_of_envelope (ts : List Trade) : InEnvelope terms ts →
    flat.AppliesAllExactly terms ts ∧
      ∃ p, flat.afterAll terms ts = .ok p ∧ Bounded terms ts p := by
  induction ts using List.reverseRecOn with
  | nil => exact fun _ => ⟨trivial, flat, rfl, within_flat⟩
  | append_singleton ts t ih =>
      intro h
      obtain ⟨hexact, p, hall, hp⟩ := ih h.of_append.1
      obtain ⟨happly, fee, q, -, -, hafter, -, hq⟩ := exists_step_of_bounded h hp
      refine ⟨hexact.append_singleton ts flat fun p' hp' => ?_, q, afterAll_concat hall hafter, hq⟩
      obtain rfl : p' = p := Except.ok.inj (hp'.symm.trans hall)
      exact ⟨happly, q, hafter, trivial⟩

/-- The trade closes a part of the position and not all of it. -/
def ClosesInPart (p : Position) (t : Trade) : Prop :=
  ¬p.extendedBy t = true ∧ t.quantity.toRat < |p.base.toRat|

instance (p : Position) (t : Trade) : Decidable (p.ClosesInPart t) :=
  inferInstanceAs (Decidable (_ ∧ _))

/-- A partial close takes a part of the cost, which is not negative and not more than there is.  It
can neither be a trade that extends the position nor one that reverses it. -/
theorem release_of_closesInPart (hts : InEnvelope terms [t]) (h : p.Within ceiling ceiling ceiling)
    (hstep : p.ExactStep t fee q) (hclose : p.ClosesInPart t) :
    ∃ released, p.release t.quantity = .ok released ∧ 0 ≤ released.1.toRat ∧
      released.1.toRat ≤ p.costBasis.toRat ∧
        q.costBasis.toRat = p.costBasis.toRat - released.1.toRat := by
  obtain ⟨hplain, -⟩ := hts.amounts
  obtain ⟨hagainst, hpart⟩ := hclose
  cases hstep.costs with
  | increased side cost netCost gross net =>
      exact absurd ((extendedBy_iff hplain.quantity_pos).mpr side) hagainst
  | reduced released hopen side amount hrelease cost netCost gross net =>
      obtain ⟨hshare, -⟩ := isShare_of_release h.base hopen h.cost h.netCost
        hplain.quantity_pos.le amount hrelease
      have hmem := hshare.mem
      rw [Set.uIcc_of_le h.cost_nonneg] at hmem
      exact ⟨released, hrelease, hmem.1, hmem.2, cost⟩
  | reversed closingFee hopen side amount hshare cost netCost gross net =>
      exact absurd hpart amount.not_gt

end Position

/-- **The safe envelope.**  A run in the envelope meets no fault, rounds no sum, no difference and
no product of a price with a quantity, and has unit costs in range.  After every trade the cost of
what is open is not negative, and what a partial close takes from it is neither negative nor more
than there is.
Source: `BASIS_SCALE`, `add_trade` and `fee_in_quote`. -/
theorem safe_envelope {terms : Terms} {ts : List Trade} (h : InEnvelope terms ts) :
    Position.flat.AppliesAllExactly terms ts ∧
      ∀ us, us <+: ts → ∃ p, Position.flat.afterAll terms us = .ok p ∧ 0 ≤ p.costBasis.toRat ∧
        ∀ t, us ++ [t] <+: ts → p.ClosesInPart t →
          ∃ released q, p.release t.quantity = .ok released ∧ 0 ≤ released.1.toRat ∧
            released.1.toRat ≤ p.costBasis.toRat ∧ p.after terms t = .ok q ∧
              q.costBasis.toRat = p.costBasis.toRat - released.1.toRat := by
  refine ⟨(Position.exact_bounded_of_envelope ts h).1, ?_⟩
  rintro us ⟨vs, rfl⟩
  have hus := h.of_append.1
  obtain ⟨-, p, hall, hp⟩ := Position.exact_bounded_of_envelope us hus
  refine ⟨p, hall, hp.cost_nonneg, ?_⟩
  rintro t ⟨ws, hws⟩ hclose
  have ht : InEnvelope terms (us ++ [t]) := by
    rw [← hws] at h
    exact h.of_append.1
  obtain ⟨-, fee, q, -, -, hafter, hstep, -⟩ := Position.exists_step_of_bounded ht hp
  obtain ⟨released, hrelease, hnonneg, hle, hcost⟩ := Position.release_of_closesInPart
    ht.of_append.2 (Position.Within.mono hp hus.turnover hus.volume hus.feeVolume) hstep hclose
  exact ⟨released, q, hrelease, hnonneg, hle, hafter, hcost⟩

/-! ## A run at the limits -/

/-- A trade whose price, quantity and fee are given in units of the eighth place. -/
def sampleFineTrade (id : UInt64) (side : Side) (price quantity fee : ℤ) (feeCurrency : String) :
    Trade :=
  let decimal (n : ℤ) := (Decimal.ofParts? n 8).getD .zero
  { sampleTrade id side 0 0 0 with
    price := decimal price, quantity := decimal quantity, fee := decimal fee, feeCurrency
    quoteQuantity := (((decimal price).mul (decimal quantity)).toOption).getD .zero }

/-- A purchase whose notional is one unit of the eighth place below the ceiling, with a fee in a
currency without a rate. -/
def samplePurchase : Trade :=
  sampleFineTrade 1 .buy 3333333333333333333 300000000 9999999999000000000 "BNB"

/-- A sale of the smallest quantity, with the smallest fee in the base currency. -/
def sampleSale : Trade := sampleFineTrade 2 .sell 10000000 1 1 "BTC"

/-- A sale that reverses the position, and takes the volume up to the ceiling, for nothing. -/
def sampleReversal : Trade := sampleFineTrade 3 .sell 0 9999999999699999999 0 "USDT"

/-- A run at the limits of the envelope. -/
def sampleLimits : List Trade := [samplePurchase, sampleSale, sampleReversal]

/-- The volume of this run is the ceiling; it has the smallest sale that there is, and a
reversal. -/
theorem safe_envelope_sampleLimits :
    InEnvelope sampleTerms sampleLimits ∧ volume sampleLimits = ceiling ∧
      Position.flat.AppliesAllExactly sampleTerms sampleLimits ∧
        Yields (Position.flat.afterAll sampleTerms [samplePurchase]) fun p =>
          p.ClosesInPart sampleSale ∧ Yields (p.release sampleSale.quantity) fun released =>
            0 < released.1.toRat ∧ released.1.toRat ≤ p.costBasis.toRat := by
  have henvelope : InEnvelope sampleTerms sampleLimits := by decide +kernel
  have hvolume : volume sampleLimits = ceiling := by decide +kernel
  have hclose : Yields (Position.flat.afterAll sampleTerms [samplePurchase]) fun p =>
      p.ClosesInPart sampleSale ∧ Yields (p.release sampleSale.quantity) fun released =>
        0 < released.1.toRat := by decide +kernel
  obtain ⟨hexact, hsafe⟩ := safe_envelope henvelope
  obtain ⟨p, hall, hpart, released, hrelease, hpos⟩ := hclose
  obtain ⟨p', hall', -, hnext⟩ := hsafe [samplePurchase] ⟨[sampleSale, sampleReversal], rfl⟩
  obtain rfl : p' = p := Except.ok.inj (hall'.symm.trans hall)
  obtain ⟨released', q, hrelease', -, hle, -⟩ := hnext sampleSale ⟨[sampleReversal], rfl⟩ hpart
  obtain rfl : released' = released := Except.ok.inj (hrelease'.symm.trans hrelease)
  exact ⟨henvelope, hvolume, hexact, p', hall, hpart, released', hrelease, hpos, hle⟩

end CostBasis
