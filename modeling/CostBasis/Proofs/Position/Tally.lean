import CostBasis.Proofs.Position.TrailingZeros

/-!
# What does not depend on the order of trades

The open amount, the quote currency, the fees and the number of trades are sums over the trades,
as long as no sum is rounded.  So they are the same in whatever order the trades came, with whatever
partial closes and reversals on the way.  They are sums of numbers, so they are also the same with
whatever trailing zeros the trades were given.

Main statements: `Tallies.step` carries the sums through one trade, `Tallies.perm` says that the
order of the trades is of no account, and `Tallies.same` says this of trailing zeros.
-/

namespace CostBasis

open Decimal

/-! ## Sums over trades -/

/-- The amount of the quote currency that a trade moves. -/
def Trade.notional (t : Trade) : ℚ := t.price.toRat * t.quantity.toRat

/-- The fee of a trade in the quote currency as a number. -/
def Terms.quotedFee (terms : Terms) (t : Trade) : ℚ :=
  match terms.feeInQuote t with
  | .ok fee => fee.toRat
  | .error _ => 0

/-- The trades that have an effect: those of a positive quantity. -/
def effective (ts : List Trade) : List Trade := ts.filter fun t => t.quantity.isPositive

/-- The quantity bought less the quantity sold. -/
def netQuantity (ts : List Trade) : ℚ := (ts.map fun t => t.signedQuantity.toRat).sum

/-- What was taken in by selling. -/
def proceeds (ts : List Trade) : ℚ := ((ts.filter fun t => t.side = .sell).map Trade.notional).sum

/-- What was paid for buying. -/
def outlay (ts : List Trade) : ℚ := ((ts.filter fun t => t.side = .buy).map Trade.notional).sum

/-- The fees of trades in the quote currency. -/
def Terms.quotedFees (terms : Terms) (ts : List Trade) : ℚ := (ts.map terms.quotedFee).sum

/-- The trades with a fee in a currency. -/
def chargedIn (currency : String) (ts : List Trade) : List Trade :=
  ts.filter fun t => !t.fee.isZero && t.feeCurrency == currency

/-- The fees that were paid in a currency, if there was one. -/
def feesIn? (currency : String) (ts : List Trade) : Option ℚ :=
  if chargedIn currency ts = [] then none
  else some ((chargedIn currency ts).map fun t => t.fee.toRat).sum

/-- The sums are those over the trades so far. -/
structure Tallies (terms : Terms) (ts : List Trade) (p : Position) : Prop where
  base : p.base.toRat = netQuantity (effective ts)
  quote : p.quote.toRat = proceeds (effective ts) - outlay (effective ts)
  feeTotal : p.feeTotal.toRat = terms.quotedFees (effective ts)
  fees : ∀ currency, p.fees.amount? currency = feesIn? currency (effective ts)
  tradeCount : p.tradeCount = (effective ts).length

/-! ## One more trade -/

/-- The trades that have an effect, part by part. -/
theorem effective_append (ts us : List Trade) :
    effective (ts ++ us) = effective ts ++ effective us :=
  List.filter_append ts us

/-- A trade of a positive quantity has an effect. -/
theorem effective_singleton {t : Trade} (hq : t.quantity.isPositive = true) :
    effective [t] = [t] := by
  simp [effective, hq]

/-- Without trades nothing is open. -/
@[simp] theorem netQuantity_nil : netQuantity [] = 0 := rfl

/-- A trade adds its signed quantity. -/
theorem netQuantity_cons (t : Trade) (ts : List Trade) :
    netQuantity (t :: ts) = t.signedQuantity.toRat + netQuantity ts :=
  List.sum_cons

/-- The net quantity of two lists is the sum of theirs. -/
theorem netQuantity_append (ts us : List Trade) :
    netQuantity (ts ++ us) = netQuantity ts + netQuantity us := by
  simp [netQuantity]

/-- The fees of two lists are the sum of theirs. -/
theorem quotedFees_append (terms : Terms) (ts us : List Trade) :
    terms.quotedFees (ts ++ us) = terms.quotedFees ts + terms.quotedFees us := by
  simp [Terms.quotedFees]

/-- A sale adds to what was taken in, a purchase to what was paid. -/
theorem proceeds_sub_outlay_append_singleton (ts : List Trade) (t : Trade) :
    proceeds (ts ++ [t]) - outlay (ts ++ [t]) =
      proceeds ts - outlay ts - t.side.sign * t.notional := by
  unfold proceeds outlay
  cases h : t.side <;> simp [h, Side.sign] <;> ring

/-- The first fee in a currency starts its total, and a later one adds to it.  A fee of zero does
neither. -/
theorem feesIn?_append_singleton (currency : String) (ts : List Trade) (t : Trade) :
    feesIn? currency (ts ++ [t]) =
      if t.fee.isZero = false ∧ t.feeCurrency = currency then
        some ((feesIn? currency ts).getD 0 + t.fee.toRat)
      else feesIn? currency ts := by
  have happend : chargedIn currency (ts ++ [t]) =
      chargedIn currency ts ++ chargedIn currency [t] := List.filter_append ts [t]
  unfold feesIn?
  rw [happend]
  by_cases h : t.fee.isZero = false ∧ t.feeCurrency = currency
  · have hone : chargedIn currency [t] = [t] := by simp [chargedIn, h]
    rw [hone, if_neg (by simp), if_pos h]
    by_cases hnone : chargedIn currency ts = []
    · simp [hnone]
    · simp [hnone]
  · have hnone : chargedIn currency [t] = [] := by simpa [chargedIn] using h
    rw [hnone, List.append_nil, if_neg h]

/-- Before any trade all sums are zero. -/
theorem tallies_flat (terms : Terms) : Tallies terms [] .flat where
  base := by simp [Position.flat, netQuantity, effective]
  quote := by simp [Position.flat, proceeds, outlay, effective]
  feeTotal := by simp [Position.flat, Terms.quotedFees, effective]
  fees currency := by
    simp [Position.flat, FeeTotals.amount?, feesIn?, chargedIn, effective]
  tradeCount := rfl

/-- **The sums after one more trade.**  Whether it opens, closes or reverses makes no difference
here. -/
theorem Tallies.step {terms : Terms} {ts : List Trade} {p q : Position} {t : Trade} {fee : Decimal}
    (h : Tallies terms ts p) (hq : t.quantity.isPositive = true)
    (hfee : terms.feeInQuote t = .ok fee) (hstep : p.ExactStep t fee q) :
    Tallies terms (ts ++ [t]) q := by
  have heffective : effective (ts ++ [t]) = effective ts ++ [t] := by
    rw [effective_append, effective_singleton hq]
  constructor
  · rw [heffective, netQuantity_append, ← h.base, hstep.base]
    simp [netQuantity]
  · rw [heffective, proceeds_sub_outlay_append_singleton, ← h.quote, hstep.quote]
    rfl
  · rw [heffective, quotedFees_append, ← h.feeTotal, hstep.feeTotal]
    simp [Terms.quotedFees, Terms.quotedFee, hfee]
  · intro currency
    rw [heffective, feesIn?_append_singleton, ← h.fees, hstep.fees]
  · rw [heffective, List.length_append, ← h.tradeCount, hstep.tradeCount]
    rfl

/-- A trade without a positive quantity adds to no sum, and the position does not see it. -/
theorem Tallies.skip {terms : Terms} {ts : List Trade} {p : Position} {t : Trade}
    (h : Tallies terms ts p) (hq : ¬t.quantity.isPositive = true) :
    Tallies terms (ts ++ [t]) p := by
  have heffective : effective (ts ++ [t]) = effective ts := by simp [effective, hq]
  constructor
  · rw [heffective, h.base]
  · rw [heffective, h.quote]
  · rw [heffective, h.feeTotal]
  · intro currency
    rw [heffective, h.fees]
  · rw [heffective, h.tradeCount]

/-! ## Other orders -/

/-- The fees in a currency do not depend on the order of the trades, and neither does whether there
was one. -/
theorem feesIn?_perm {ts us : List Trade} (h : ts.Perm us) (currency : String) :
    feesIn? currency ts = feesIn? currency us := by
  have hcharged : (chargedIn currency ts).Perm (chargedIn currency us) := h.filter _
  have hnone : chargedIn currency ts = [] ↔ chargedIn currency us = [] := by
    rw [← List.length_eq_zero_iff, hcharged.length_eq, List.length_eq_zero_iff]
  unfold feesIn?
  by_cases hts : chargedIn currency ts = []
  · rw [if_pos hts, if_pos (hnone.mp hts)]
  · rw [if_neg hts, if_neg fun hus => hts (hnone.mpr hus), (hcharged.map _).sum_eq]

/-- **The order of the trades is of no account for the sums.**  This is what two runs that apply the
same trades in different orders have in common. -/
theorem Tallies.perm {terms : Terms} {ts us : List Trade} {p : Position} (h : Tallies terms ts p)
    (hperm : ts.Perm us) : Tallies terms us p := by
  have heffective : (effective ts).Perm (effective us) := hperm.filter _
  constructor
  · rw [h.base]
    exact (heffective.map _).sum_eq
  · rw [h.quote]
    exact congrArg₂ (· - ·) ((heffective.filter _).map _).sum_eq
      ((heffective.filter _).map _).sum_eq
  · rw [h.feeTotal]
    exact (heffective.map _).sum_eq
  · intro currency
    rw [h.fees, feesIn?_perm heffective]
  · rw [h.tradeCount, heffective.length_eq]

/-! ## Other trailing zeros -/

section same

open List (Forall₂)

variable {terms : Terms} {ts us : List Trade} {t u : Trade}

/-- Trades that are the same move the same amount of the quote currency. -/
theorem Trade.Same.notional (h : t.Same u) : t.notional = u.notional := by
  rw [Trade.notional, Trade.notional, show t.price.toRat = u.price.toRat from h.price,
    show t.quantity.toRat = u.quantity.toRat from h.quantity]

/-- The fees of trades that are the same are the same number in the quote currency, also where they
are converted, and also where no number stands for them. -/
theorem Trade.Same.quotedFee (h : t.Same u) (terms : Terms) :
    terms.quotedFee t = terms.quotedFee u := by
  have hfee := terms.feeInQuote_same h
  unfold Terms.quotedFee
  generalize terms.feeInQuote t = x, terms.feeInQuote u = y at hfee
  cases hfee with
  | ok hsame => exact hsame
  | error fault => rfl

/-- Of trades that are the same, both have an effect or neither. -/
theorem effective_same (h : Forall₂ Trade.Same ts us) :
    Forall₂ Trade.Same (effective ts) (effective us) :=
  Trade.Same.filter (fun ht => ht.quantity.isPositive) h

/-- The same trades take in the same. -/
theorem proceeds_same (h : Forall₂ Trade.Same ts us) : proceeds ts = proceeds us := by
  have hsold : Forall₂ Trade.Same (ts.filter fun t => t.side = .sell)
      (us.filter fun u => u.side = .sell) :=
    Trade.Same.filter (fun ht => by rw [ht.side]) h
  exact congrArg List.sum (Trade.Same.map_eq Trade.Same.notional hsold)

/-- The same trades pay the same. -/
theorem outlay_same (h : Forall₂ Trade.Same ts us) : outlay ts = outlay us := by
  have hbought : Forall₂ Trade.Same (ts.filter fun t => t.side = .buy)
      (us.filter fun u => u.side = .buy) :=
    Trade.Same.filter (fun ht => by rw [ht.side]) h
  exact congrArg List.sum (Trade.Same.map_eq Trade.Same.notional hbought)

/-- Trades that are the same are charged in the same currencies, so they pay fees in a currency on
both sides or on neither. -/
theorem feesIn?_same (h : Forall₂ Trade.Same ts us) (currency : String) :
    feesIn? currency ts = feesIn? currency us := by
  have hcharged : Forall₂ Trade.Same (chargedIn currency ts) (chargedIn currency us) :=
    Trade.Same.filter (fun ht => by rw [ht.fee.isZero, ht.feeCurrency]) h
  have hnone : chargedIn currency ts = [] ↔ chargedIn currency us = [] := by
    rw [← List.length_eq_zero_iff, hcharged.length_eq, List.length_eq_zero_iff]
  have hsum := congrArg List.sum (Trade.Same.map_eq (f := fun t => t.fee.toRat)
    (fun ht => ht.fee) hcharged)
  unfold feesIn?
  rw [hsum]
  exact if_congr hnone rfl rfl

/-- **The trailing zeros of the trades are of no account for the sums**, since all of them are sums
of numbers. -/
theorem Tallies.same {p : Position} (h : Tallies terms ts p) (hsame : Forall₂ Trade.Same ts us) :
    Tallies terms us p := by
  have heffective := effective_same hsame
  constructor
  · rw [h.base]
    exact congrArg List.sum (Trade.Same.map_eq (fun ht => ht.signedQuantity) heffective)
  · rw [h.quote, proceeds_same heffective, outlay_same heffective]
  · rw [h.feeTotal]
    exact congrArg List.sum (Trade.Same.map_eq (fun ht => ht.quotedFee terms) heffective)
  · intro currency
    rw [h.fees, feesIn?_same heffective]
  · rw [h.tradeCount, heffective.length_eq]

end same

end CostBasis
