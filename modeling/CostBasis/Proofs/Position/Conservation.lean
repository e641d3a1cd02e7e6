import CostBasis.Proofs.Position.Tally

/-!
# Profit is conserved

In an exact run the profit is what was taken in less what was paid, as far as it is not still in the
open amount.  It does not matter that the share of the cost which a partial close releases is
rounded: the rest stays in the cost of what is open, and comes out when that is closed.

The invariant is `Conserves`.  A trade that increases the position adds to the quote currency what
it takes from the cost; one that reduces it moves the released share from the cost to the profit;
one that reverses it does this for the whole cost, and starts a new one with the opposite sign.

Main statement: `profit_conserved`.
-/

namespace CostBasis

open Decimal

/-! ## The invariant -/

/-- The profit is the quote currency and the cost of what is open, and the net profit is that with
the fees. -/
structure Conserves (p : Position) : Prop where
  gross : p.grossProfit.toRat = p.quote.toRat + p.sign * p.costBasis.toRat
  net : p.netProfit.toRat = p.quote.toRat + p.sign * p.netCostBasis.toRat - p.feeTotal.toRat
  /-- Where nothing is open nothing has a cost. -/
  cleared : p.base.toRat = 0 → p.costBasis = .zero ∧ p.netCostBasis = .zero ∧
    p.averageCost = .zero ∧ p.netAverageCost = .zero

/-- Before any trade there is nothing to conserve. -/
theorem conserves_flat : Conserves .flat where
  gross := by simp [Position.flat]
  net := by simp [Position.flat]
  cleared _ := ⟨rfl, rfl, rfl, rfl⟩

namespace Position

variable {p q : Position} {t : Trade} {fee : Decimal}

/-- A trade that opens the position or goes in its direction gives it the sign of its side.  A flat
position counts as a long one, so opening may change the sign. -/
theorem ExactStep.sign_of_increased (h : p.ExactStep t fee q) (hq : 0 < t.quantity.toRat)
    (hside : p.base.toRat = 0 ∨ t.side.sign = p.sign) : q.sign = t.side.sign := by
  have habs := p.abs_base
  have hnonneg := abs_nonneg p.base.toRat
  rw [q.sign_eq, h.base]
  rcases hside with hbase | hside
  · rw [hbase, zero_add]
    rcases t.side.sign_eq_or with ht | ht <;> simp [ht, hq, hq.le]
  · rw [hside]
    rcases p.sign_eq_or with hp | hp <;> rw [hp] at habs ⊢
    · exact if_neg (by linarith)
    · exact if_pos (by linarith)

/-- A trade that is smaller than the position leaves it its sign.  What is left of the position is
on the same side of zero. -/
theorem ExactStep.sign_of_reduced (h : p.ExactStep t fee q) (hside : t.side.sign = -p.sign)
    (hle : t.quantity.toRat ≤ |p.base.toRat|) (hopen : q.base.toRat ≠ 0) : q.sign = p.sign := by
  have hbase := h.base
  rw [p.abs_base] at hle
  rw [hside] at hbase
  rw [q.sign_eq]
  rcases p.sign_eq_or with hp | hp <;> rw [hp] at hbase hle ⊢
  · exact if_neg (by linarith)
  · exact if_pos (lt_of_le_of_ne (by linarith) hopen)

/-- A trade that is larger than the position turns its sign round. -/
theorem ExactStep.sign_of_reversed (h : p.ExactStep t fee q) (hside : t.side.sign = -p.sign)
    (hlt : |p.base.toRat| < t.quantity.toRat) : q.sign = -p.sign := by
  rw [p.abs_base] at hlt
  rw [q.sign_eq, h.base, hside]
  rcases p.sign_eq_or with hp | hp <;> rw [hp] at hlt ⊢
  · exact if_pos (by linarith)
  · rw [if_neg (by linarith), neg_neg]

end Position

section step

variable {p q : Position} {t : Trade} {fee : Decimal}

/-- An exact trade conserves the profit before fees.  There are three cases: what is added to the
cost is taken from the quote currency, what is released goes from the cost to the profit, and a
reversal does the second for the whole cost and then the first. -/
theorem Conserves.gross_step (h : Conserves p) (hq : 0 < t.quantity.toRat)
    (hstep : p.ExactStep t fee q) :
    q.grossProfit.toRat = q.quote.toRat + q.sign * q.costBasis.toRat := by
  have hgross := h.gross
  rw [hstep.quote]
  cases hstep.costs with
  | increased side cost netCost gross net =>
      rw [gross, hgross, cost, hstep.sign_of_increased hq side]
      rcases side with hbase | side
      · rw [(h.cleared hbase).1, toRat_zero]
        ring
      · rw [side]
        ring
  | reduced released base side amount release cost netCost gross net =>
      by_cases hopen : q.base.toRat = 0
      · -- All is closed, so what was released is the whole cost.
        rw [(hstep.cleared hopen).1, toRat_zero] at cost ⊢
        rw [gross, hgross, side, ← sub_eq_zero.mp cost.symm]
        ring
      · rw [gross, hgross, side, cost, hstep.sign_of_reduced side amount hopen]
        ring
  | reversed closing base side amount share cost netCost gross net =>
      rw [gross, hgross, side, cost, hstep.sign_of_reversed side amount]
      ring

/-- An exact trade conserves the profit after fees.  The fee of an opening goes into the cost with
the sign of the direction, and comes out of it with the same sign. -/
theorem Conserves.net_step (h : Conserves p) (hq : 0 < t.quantity.toRat)
    (hstep : p.ExactStep t fee q) :
    q.netProfit.toRat = q.quote.toRat + q.sign * q.netCostBasis.toRat - q.feeTotal.toRat := by
  have hnet := h.net
  rw [hstep.quote, hstep.feeTotal]
  cases hstep.costs with
  | increased side cost netCost gross net =>
      rw [net, hnet, netCost, hstep.sign_of_increased hq side]
      rcases side with hbase | side
      · rw [(h.cleared hbase).2.1, toRat_zero]
        linear_combination -fee.toRat * t.side.sign_mul_sign
      · rw [side]
        linear_combination -fee.toRat * p.sign_mul_sign
  | reduced released base side amount release cost netCost gross net =>
      by_cases hopen : q.base.toRat = 0
      · rw [(hstep.cleared hopen).2.1, toRat_zero] at netCost ⊢
        rw [net, hnet, side, ← sub_eq_zero.mp netCost.symm]
        ring
      · rw [net, hnet, side, netCost, hstep.sign_of_reduced side amount hopen]
        ring
  | reversed closing base side amount share cost netCost gross net =>
      rw [net, hnet, side, netCost, hstep.sign_of_reversed side amount]
      linear_combination (closing.toRat - fee.toRat) * p.sign_mul_sign

/-- **An exact trade conserves the profit.**  This is the step of the run lemma below. -/
theorem Conserves.step (h : Conserves p) (hq : 0 < t.quantity.toRat)
    (hstep : p.ExactStep t fee q) : Conserves q :=
  ⟨h.gross_step hq hstep, h.net_step hq hstep, hstep.cleared⟩

end step

/-! ## Exact runs -/

namespace Position

variable {terms : Terms}

/-- The trades that come first in an exact run are an exact run. -/
theorem AppliesAllExactly.of_append {us : List Trade} :
    (ts : List Trade) → (p : Position) → p.AppliesAllExactly terms (ts ++ us) →
      p.AppliesAllExactly terms ts
  | [], _, _ => trivial
  | _ :: ts, _, ⟨happly, q, hafter, hrest⟩ => ⟨happly, q, hafter, of_append ts q hrest⟩

/-- **An exact run meets no fault, adds up to its sums and conserves the profit.**  The induction is
on the trades, for any trades before them. -/
theorem afterAll_of_exact (ts : List Trade) : ∀ (us : List Trade) (p : Position),
    Tallies terms us p → Conserves p → p.AppliesAllExactly terms ts →
      ∃ q, p.afterAll terms ts = .ok q ∧ Tallies terms (us ++ ts) q ∧ Conserves q := by
  induction ts with
  | nil =>
      intro us p htally hconserves _
      exact ⟨p, rfl, by rwa [List.append_nil], hconserves⟩
  | cons t ts ih =>
      intro us p htally hconserves ⟨happly, r, hafter, hrest⟩
      have hr : Tallies terms (us ++ [t]) r ∧ Conserves r := by
        by_cases hq : t.quantity.isPositive = true
        · obtain ⟨fee, r', hfee, hafter', hstep⟩ := exactStep_of_appliesExactly hq happly
          obtain rfl : r' = r := Except.ok.inj (hafter'.symm.trans hafter)
          exact ⟨htally.step hq hfee hstep, hconserves.step ((isPositive_iff _).mp hq) hstep⟩
        · rw [after_of_not_positive terms p hq] at hafter
          obtain rfl : p = r := Except.ok.inj hafter
          exact ⟨htally.skip hq, hconserves⟩
      obtain ⟨q, hall, hq⟩ := ih _ r hr.1 hr.2 hrest
      rw [List.append_assoc] at hq
      refine ⟨q, ?_, hq⟩
      rw [afterAll_cons, hafter]
      exact hall

end Position

/-- **Conservation of profit.**  In an exact run from the flat position, after every trade: the
amounts and the fees are the sums over the trades so far; the profit is the quote currency and the
cost of what is open, and the net profit is that with the fees.  So where nothing is open the
profit is what was taken in less what was paid, and the net profit is that less all fees.
Source: conservation; specification, section 8.  `assert_conserved` in the tests checks it on
examples. -/
theorem profit_conserved {terms : Terms} {ts us : List Trade}
    (hexact : Position.flat.AppliesAllExactly terms ts) (hus : us <+: ts) :
    ∃ p, Position.flat.afterAll terms us = .ok p ∧
      p.base.toRat = netQuantity (effective us) ∧
      p.quote.toRat = proceeds (effective us) - outlay (effective us) ∧
      p.feeTotal.toRat = terms.quotedFees (effective us) ∧
      p.grossProfit.toRat = p.quote.toRat + p.sign * p.costBasis.toRat ∧
      p.netProfit.toRat = p.quote.toRat + p.sign * p.netCostBasis.toRat - p.feeTotal.toRat ∧
      (p.base.toRat = 0 →
        p.grossProfit.toRat = proceeds (effective us) - outlay (effective us) ∧
        p.netProfit.toRat =
          proceeds (effective us) - outlay (effective us) - terms.quotedFees (effective us)) := by
  obtain ⟨vs, rfl⟩ := hus
  obtain ⟨p, hall, htally, hconserves⟩ := Position.afterAll_of_exact us [] .flat
    (tallies_flat terms) conserves_flat (hexact.of_append us)
  refine ⟨p, hall, htally.base, htally.quote, htally.feeTotal, hconserves.gross, hconserves.net,
    fun hflat => ⟨?_, ?_⟩⟩
  · rw [hconserves.gross, (hconserves.cleared hflat).1, toRat_zero, mul_zero, add_zero]
    exact htally.quote
  · rw [hconserves.net, (hconserves.cleared hflat).2.1, toRat_zero, mul_zero, add_zero]
    exact congrArg₂ (· - ·) htally.quote htally.feeTotal

/-- The sample history has a partial close and a reversal, and ends where nothing is open: it has
taken in one unit more than it paid, and paid five in fees. -/
theorem profit_conserved_sampleHistory :
    Position.flat.AppliesAllExactly sampleTerms sampleHistory ∧
      ∃ p, Position.flat.afterAll sampleTerms sampleHistory = .ok p ∧
        p.grossProfit.toRat = 1 ∧ p.netProfit.toRat = -4 := by
  have hexact : Position.flat.AppliesAllExactly sampleTerms sampleHistory := by decide +kernel
  obtain ⟨p, hall, hbase, -, -, -, -, hclosed⟩ :=
    profit_conserved hexact (List.prefix_refl sampleHistory)
  obtain ⟨hgross, hnet⟩ := hclosed (hbase.trans (by decide +kernel))
  refine ⟨hexact, p, hall, hgross.trans (by decide +kernel), hnet.trans (by decide +kernel)⟩

end CostBasis
