import CostBasis.Proofs.Position.TrailingZeros
import CostBasis.Proofs.Reconciler.Task

/-!
# Trailing zeros in the books

A reconciler that is given the same trades with other trailing zeros applies the same ones of them,
comes to the same state and announces the same.

Main statement: `deliverAll_same`.
-/

namespace CostBasis

/-! ## The same records -/

/-- Two public states that differ in trailing zeros at most. -/
structure Snapshot.Same (x y : Snapshot) : Prop where
  symbol : x.symbol = y.symbol
  base : x.base.Same y.base
  quote : x.quote.Same y.quote
  averageCost : x.averageCost.Same y.averageCost
  netAverageCost : x.netAverageCost.Same y.netAverageCost
  grossProfit : x.grossProfit.Same y.grossProfit
  netProfit : x.netProfit.Same y.netProfit
  feeTotal : x.feeTotal.Same y.feeTotal
  fees : x.fees.Same y.fees
  tradeCount : x.tradeCount = y.tradeCount
  updatedAt : x.updatedAt = y.updatedAt

/-- Positions that are the same show the same public state, field by field. -/
theorem Position.Same.snapshot {p q : Position} (h : p.Same q) (symbol : String) :
    (p.snapshot symbol).Same (q.snapshot symbol) where
  symbol := rfl
  base := h.base
  quote := h.quote
  averageCost := h.averageCost
  netAverageCost := h.netAverageCost
  grossProfit := h.grossProfit
  netProfit := h.netProfit
  feeTotal := h.feeTotal
  fees := h.fees
  tradeCount := h.tradeCount
  updatedAt := h.updatedAt

/-- Two events that differ in trailing zeros at most. -/
inductive Event.Same : Event → Event → Prop
  | trade {t u : Trade} (trade : t.Same u) : Same (.trade t) (.trade u)
  | recovery {t u : Trade} (trade : t.Same u) : Same (.recovery t) (.recovery u)
  | gain {t u : Trade} {g h : Gain} (trade : t.Same u) (gain : g.Same h) :
      Same (.gain t g) (.gain u h)
  | position {x y : Snapshot} (snapshot : x.Same y) : Same (.position x) (.position y)

/-- Two calculations announce the same, and agree. -/
structure Journal.Same {α β : Type} (R : α → β → Prop) (x : Journal α) (y : Journal β) : Prop where
  events : List.Forall₂ Event.Same x.events y.events
  result : Agree R x.result y.result

/-- Two collections of the same pending trades. -/
structure Pending.Same (p q : Pending) : Prop where
  symbol : p.symbol = q.symbol
  byId : ∀ id : UInt64, Option.Rel Trade.Same p.byId[id]? q.byId[id]?

/-- Two reconcilers that differ in trailing zeros at most. -/
structure Reconciler.Same (r s : Reconciler) : Prop where
  symbol : r.symbol = s.symbol
  terms : r.terms = s.terms
  position : r.position.Same s.position
  pending : r.pending.Same s.pending
  applied : r.applied = s.applied

namespace Journal

variable {α β γ δ : Type} {R : α → β → Prop} {S : γ → δ → Prop}

/-- Results that are related announce nothing. -/
theorem same_pure {a : α} {b : β} (h : R a b) : Same R (pure a : Journal α) (pure b) :=
  ⟨.nil, .ok h⟩

/-- Calculations that agree without events may stand in a journal. -/
theorem same_ofResult {x : Except Fault α} {y : Except Fault β} (h : Agree R x y) :
    Same R (ofResult x) (ofResult y) :=
  ⟨.nil, h⟩

/-- Announcements of the same event are the same. -/
theorem same_announce {e e' : Event} (h : e.Same e') : Same (· = ·) (announce e) (announce e') :=
  ⟨.cons h .nil, .ok rfl⟩

/-- Calculations that go on in the same way from results that are related announce the same, first
the one and then the other. -/
theorem Same.bind {x : Journal α} {y : Journal β} {f : α → Journal γ} {g : β → Journal δ}
    (h : Same R x y) (hf : ∀ a b, R a b → Same S (f a) (g b)) : Same S (x >>= f) (y >>= g) := by
  obtain ⟨events, result⟩ := x
  obtain ⟨events', result'⟩ := y
  obtain ⟨hevents, hresult⟩ := h
  cases hresult with
  | error fault =>
      rw [bind_of_error rfl, bind_of_error rfl]
      exact ⟨hevents, .error fault⟩
  | ok related =>
      rw [bind_of_ok rfl, bind_of_ok rfl]
      have h := hf _ _ related
      exact ⟨List.rel_append hevents h.events, h.result⟩

end Journal

/-! ## Pending trades -/

/-- One more pending trade, the same on both sides, stands under one number, and takes the place of
trades that were the same. -/
theorem Pending.Same.add {p q : Pending} {t u : Trade} (h : p.Same q) (ht : t.Same u) :
    (p.add t).Same (q.add u) := by
  unfold Pending.add
  by_cases hsymbol : t.symbol = p.symbol
  · rw [dif_pos hsymbol, dif_pos (by rw [← ht.symbol, hsymbol, h.symbol])]
    refine ⟨h.symbol, fun id => ?_⟩
    rw [Std.ExtTreeMap.getElem?_insert, Std.ExtTreeMap.getElem?_insert, ht.id]
    split
    · exact .some ht
    · exact h.byId id
  · rw [dif_neg hsymbol, dif_neg (by rwa [← ht.symbol, ← h.symbol])]
    exact h

namespace Reconciler

variable {r s : Reconciler} {t u : Trade} {ts us : List Trade} {origin : Origin}
  {isKnown : UInt64 → Bool}

/-- A reconciler is the same as itself. -/
@[refl] theorem Same.refl (r : Reconciler) : r.Same r where
  symbol := rfl
  terms := rfl
  position := .refl _
  pending := ⟨rfl, fun id => by cases r.pending.byId[id]? <;> constructor; rfl⟩
  applied := rfl

/-! ## Taking trades -/

/-- The same trade is applied with the same announcements: the trade, then what it has earned, if it
has earned something. -/
theorem apply_same (origin : Origin) (h : r.Same s) (ht : t.Same u) :
    Journal.Same Same (r.apply origin t) (s.apply origin u) := by
  have happly : Agree (Both (Option.Rel Gain.Same) Position.Same) (r.position.apply r.terms t)
      (s.position.apply s.terms u) := by
    rw [h.terms]
    exact Position.apply_same s.terms h.position ht
  unfold apply
  refine (Journal.same_ofResult happly).bind fun x y hxy => ?_
  obtain ⟨gain?, p⟩ := x
  obtain ⟨gain?', q⟩ := y
  obtain ⟨hgain, hposition⟩ := hxy
  have hannounced : (origin.announcement t).Same (origin.announcement u) := by
    cases origin with
    | live => exact .trade ht
    | recovered => exact .recovery ht
  have hstate : Same { r with position := p, applied := r.applied.insert t.key }
      { s with position := q, applied := s.applied.insert u.key } :=
    { h with position := hposition, applied := by rw [h.applied, ht.key] }
  refine (Journal.same_announce hannounced).bind fun _ _ _ => ?_
  cases hgain with
  | none => exact Journal.same_pure hstate
  | some hgain => exact (Journal.same_announce (.gain ht hgain)).bind fun _ _ _ =>
      Journal.same_pure hstate

/-- The same trade is applied on both sides, or pending on both, or passed over on both.  What
decides this is its key, its order, and the signs of its quantity and its price. -/
theorem deliver_same (isKnown : UInt64 → Bool) (origin : Origin) (h : r.Same s) (ht : t.Same u) :
    Journal.Same (Both (· = ·) Reconciler.Same) (r.deliver isKnown origin t)
      (s.deliver isKnown origin u) := by
  have happlied : r.isApplied t.key = s.isApplied u.key := by
    rw [isApplied, isApplied, h.applied, ht.key]
  have hsound : r.isSound t = s.isSound u := by
    rw [isSound, isSound, h.symbol, ht.symbol, ht.quantity.isPositive, ht.price.isNegative]
  unfold deliver
  rw [happlied, hsound, ht.orderId]
  split_ifs
  · exact Journal.same_pure ⟨rfl, h⟩
  · refine (apply_same origin h ht).bind fun r s h => ?_
    have hsnapshot : Event.Same (.position r.snapshot) (.position s.snapshot) := by
      rw [snapshot, snapshot, h.terms]
      exact .position (h.position.snapshot _)
    exact (Journal.same_announce hsnapshot).bind fun _ _ _ => Journal.same_pure ⟨rfl, h⟩
  · exact Journal.same_pure ⟨rfl, { h with pending := h.pending.add ht }⟩

/-- **The same trades leave the same books**, and as many of them are applied.  The induction is on
both lists at once. -/
theorem deliverAll_same (isKnown : UInt64 → Bool) (origin : Origin)
    (hts : List.Forall₂ Trade.Same ts us) : ∀ {r s : Reconciler}, r.Same s →
      Journal.Same (Both (· = ·) Reconciler.Same) (r.deliverAll isKnown origin ts)
        (s.deliverAll isKnown origin us) := by
  induction hts with
  | nil =>
      intro r s h
      exact Journal.same_pure ⟨rfl, h⟩
  | cons ht _ ih =>
      intro r s h
      rw [deliverAll_cons, deliverAll_cons]
      refine (deliver_same isKnown origin h ht).bind fun a b hab => ?_
      refine (ih hab.2).bind fun c d hcd => ?_
      exact Journal.same_pure ⟨by rw [hab.1, hcd.1], hcd.2⟩

end Reconciler

end CostBasis
