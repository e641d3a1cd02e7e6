import CostBasis.Proofs.Position.Envelope

/-!
# Average cost in exact numbers

The average-cost rule without any rounding.  An ideal account has the numbers of a position as
rational numbers.  A trade against it releases the share of the cost that it closes, and the share
of its own fee, as they are.  Beside the numbers the account counts the partial closes since it was
last flat or reversed.

A position rounds these shares and nothing else, so the account is what a position is measured
against.
-/

namespace CostBasis

/-- An account at average cost in which nothing is rounded. -/
structure Ideal where
  /-- The amount of the base currency, negative if it is owed. -/
  base : ℚ
  /-- The quote currency that was taken in, less what was paid. -/
  quote : ℚ
  /-- All fees, in the quote currency. -/
  feeTotal : ℚ
  /-- The cost of the open amount. -/
  cost : ℚ
  /-- The cost of the open amount, with fees. -/
  netCost : ℚ
  /-- All gains before fees. -/
  gross : ℚ
  /-- All gains after fees. -/
  net : ℚ
  /-- The number of partial closes since the account was last flat or reversed. -/
  partialCloses : ℕ
deriving DecidableEq

namespace Ideal

/-- The account before any trade. -/
def flat : Ideal := ⟨0, 0, 0, 0, 0, 0, 0, 0⟩

/-- The sign of the open amount; nothing counts as held. -/
def sign (a : Ideal) : ℚ := if a.base < 0 then -1 else 1

/-- Moves the quote currency, and adds the fee to the total. -/
def settle (a : Ideal) (t : Trade) (fee : ℚ) : Ideal :=
  { a with
    quote := a.quote - t.side.sign * t.notional
    feeTotal := a.feeTotal + fee }

/-- Opens the account or adds to it. -/
def increase (a : Ideal) (t : Trade) (fee : ℚ) : Ideal :=
  { a with
    base := a.base + t.side.sign * t.quantity.toRat
    cost := a.cost + t.notional
    netCost := a.netCost + (t.notional + t.side.sign * fee) }

/-- Closes a part of the account or all of it, and opens the other direction with what is left of
the trade.  The cost and the fee are divided in proportion. -/
def decrease (a : Ideal) (t : Trade) (fee : ℚ) : Ideal :=
  let closed := min t.quantity.toRat |a.base|
  let opened := t.quantity.toRat - closed
  let share := closed / |a.base|
  let closingFee := fee * (closed / t.quantity.toRat)
  let proceeds := t.price.toRat * closed
  { a with
    base := a.base + t.side.sign * t.quantity.toRat
    cost := if 0 < opened then t.price.toRat * opened else a.cost - a.cost * share
    netCost :=
      if 0 < opened then t.price.toRat * opened - a.sign * (fee - closingFee)
      else a.netCost - a.netCost * share
    gross := a.gross + a.sign * (proceeds - a.cost * share)
    net := a.net + a.sign * (proceeds - a.netCost * share) - closingFee
    partialCloses := if t.quantity.toRat < |a.base| then a.partialCloses + 1 else 0 }

/-- The account after one trade.  A trade without a positive quantity has no effect. -/
def after (terms : Terms) (a : Ideal) (t : Trade) : Ideal :=
  if 0 < t.quantity.toRat then
    let settled := a.settle t (terms.feeWorth t)
    if a.base = 0 ∨ t.side.sign = a.sign then settled.increase t (terms.feeWorth t)
    else settled.decrease t (terms.feeWorth t)
  else a

/-- The account after a list of trades, in the order of the list. -/
def afterAll (terms : Terms) (a : Ideal) (ts : List Trade) : Ideal := ts.foldl (after terms) a

variable {terms : Terms} {a : Ideal} {t : Trade} {fee : ℚ}

/-- One more trade at the end of a run. -/
theorem afterAll_append_singleton (ts : List Trade) :
    a.afterAll terms (ts ++ [t]) = (a.afterAll terms ts).after terms t :=
  List.foldl_append

/-! ## One trade -/

/-- The effect of a trade on the amounts, the same on every side and whether it opens or closes. -/
theorem after_amounts (terms : Terms) (a : Ideal) (hq : 0 < t.quantity.toRat) :
    (a.after terms t).base = a.base + t.side.sign * t.quantity.toRat ∧
      (a.after terms t).quote = a.quote - t.side.sign * t.notional ∧
        (a.after terms t).feeTotal = a.feeTotal + terms.feeWorth t := by
  rw [after, if_pos hq]
  split <;> exact ⟨rfl, rfl, rfl⟩

/-- A trade that opens the account or goes in its direction. -/
theorem after_of_increased (hq : 0 < t.quantity.toRat) (h : a.base = 0 ∨ t.side.sign = a.sign) :
    a.after terms t = (a.settle t (terms.feeWorth t)).increase t (terms.feeWorth t) := by
  rw [after, if_pos hq, if_pos h]

/-- A trade that goes against the account closes a part of it or all of it, or reverses it. -/
theorem after_of_decreased (hq : 0 < t.quantity.toRat) (hopen : a.base ≠ 0)
    (h : t.side.sign = -a.sign) :
    a.after terms t = (a.settle t (terms.feeWorth t)).decrease t (terms.feeWorth t) := by
  have hside : ¬(a.base = 0 ∨ t.side.sign = a.sign) := by
    rintro (hflat | hsame)
    · exact hopen hflat
    · rw [hsame] at h
      unfold sign at h
      split at h <;> norm_num at h
  rw [after, if_pos hq, if_neg hside]

/-- A trade that is not larger than what is open closes a part of it or all of it, and its whole fee
belongs to the close. -/
theorem decrease_of_le (hq : 0 < t.quantity.toRat) (hle : t.quantity.toRat ≤ |a.base|) :
    a.decrease t fee =
      { a with
        base := a.base + t.side.sign * t.quantity.toRat
        cost := a.cost - a.cost * (t.quantity.toRat / |a.base|)
        netCost := a.netCost - a.netCost * (t.quantity.toRat / |a.base|)
        gross := a.gross + a.sign * (t.notional - a.cost * (t.quantity.toRat / |a.base|))
        net := a.net + a.sign * (t.notional - a.netCost * (t.quantity.toRat / |a.base|)) - fee
        partialCloses := if t.quantity.toRat < |a.base| then a.partialCloses + 1 else 0 } := by
  unfold decrease
  simp only [min_eq_left hle, sub_self, lt_irrefl, if_false, div_self hq.ne', mul_one]
  rfl

/-- A trade that is larger than what is open releases the whole cost and starts a new one. -/
theorem decrease_of_lt (hopen : a.base ≠ 0) (hlt : |a.base| < t.quantity.toRat) :
    a.decrease t fee =
      { a with
        base := a.base + t.side.sign * t.quantity.toRat
        cost := t.price.toRat * (t.quantity.toRat - |a.base|)
        netCost := t.price.toRat * (t.quantity.toRat - |a.base|) -
          a.sign * (fee - fee * (|a.base| / t.quantity.toRat))
        gross := a.gross + a.sign * (t.price.toRat * |a.base| - a.cost)
        net := a.net + a.sign * (t.price.toRat * |a.base| - a.netCost) -
          fee * (|a.base| / t.quantity.toRat)
        partialCloses := 0 } := by
  unfold decrease
  simp only [min_eq_right hlt.le, if_pos (sub_pos.mpr hlt), div_self (abs_ne_zero.mpr hopen),
    mul_one, if_neg hlt.not_gt]

end Ideal

end CostBasis
