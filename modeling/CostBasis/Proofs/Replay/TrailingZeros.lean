import CostBasis.Proofs.Position.TrailingZeros
import CostBasis.Proofs.Replay.Admission

/-!
# Trailing zeros in a replay

A replay that is given the same trades with other trailing zeros raises the same objections, leaves
the same checkpoints and comes to the same state.

Main statement: `append_same`.
-/

namespace CostBasis

open Decimal (add_same)

/-- Two replays that differ in trailing zeros at most. -/
structure Replay.Same (r s : Replay) : Prop where
  position : r.position.Same s.position
  trades : List.Forall₂ Trade.Same r.trades.toList s.trades.toList
  checkpoints : r.checkpoints = s.checkpoints
  quantity : r.quantity.Same s.quantity
  buyVolume : r.buyVolume.Same s.buyVolume
  sellVolume : r.sellVolume.Same s.sellVolume

namespace Replay

variable {terms : Terms} {r s : Replay} {t u : Trade} {ts us : List Trade}

/-- A replay is the same as itself. -/
@[refl] theorem Same.refl (r : Replay) : r.Same r where
  position := .refl _
  trades := List.forall₂_same.mpr fun t _ => .refl t
  checkpoints := rfl
  quantity := rfl
  buyVolume := rfl
  sellVolume := rfl

/-- The last trades of replays that are the same have the same time. -/
theorem Same.lastTime (h : r.Same s) :
    r.trades.back?.map (·.time) = s.trades.back?.map (·.time) := by
  have htimes : r.trades.toList.map (·.time) = s.trades.toList.map (·.time) :=
    Trade.Same.map_eq (fun ht => ht.time) h.trades
  rw [← Array.getLast?_toList, ← Array.getLast?_toList, ← List.getLast?_map, htimes,
    List.getLast?_map]

/-! ## Looking through a batch -/

/-- A trade has the same flaw, however its numbers are written. -/
theorem flaw?_same (last : Option Instant) (h : t.Same u) : flaw? last t = flaw? last u := by
  rw [flaw?, flaw?, h.quantity.isPositive, h.price.isNegative, h.fee.isNegative, h.time]

/-- The objection to a batch is the same, and it names the same trade, as a trade is named by its
key. -/
theorem objection?_same (symbol : String) (h : List.Forall₂ Trade.Same ts us) :
    ∀ last, objection? symbol last ts = objection? symbol last us := by
  induction h with
  | nil =>
      intro last
      rfl
  | cons ht _ ih =>
      intro last
      rw [objection?, objection?, ht.symbol, ht.key, flaw?_same last ht, ht.time, ih]

/-! ## Taking a batch -/

/-- Two answers with the same checkpoints, or both without them, and the states that they leave. -/
abbrev SameAnswer {α : Type} : (x y : Except Rejection α × Replay) → Prop :=
  Both (fun x y => x.toOption = y.toOption) Same

/-- A trade is taken from both replays, or from neither, and leaves a checkpoint in both or in
neither: whether something is open is a matter of numbers. -/
theorem enter_same (terms : Terms) (h : r.Same s) (ht : t.Same u) :
    Agree SameAnswer (r.enter terms t) (s.enter terms u) := by
  unfold enter
  refine (Position.after_same terms h.position ht).bind fun p q hposition => ?_
  refine (add_same h.quantity ht.signedQuantity).bind fun quantity quantity' hquantity => ?_
  have hsize : r.trades.size = s.trades.size := by simpa using h.trades.length_eq
  have htrades : List.Forall₂ Trade.Same (r.trades.push t).toList (s.trades.push u).toList := by
    rw [Array.toList_push, Array.toList_push]
    exact List.rel_append h.trades (.cons ht .nil)
  simp only [hposition.base.isEqual hquantity, hquantity.isZero, ht.side, ht.id, ht.time]
  split
  · exact .ok ⟨rfl, { h with position := hposition, quantity := hquantity }⟩
  · cases u.side with
    | buy =>
      refine (add_same h.buyVolume ht.quantity).bind fun volume volume' hvolume => ?_
      exact .ok ⟨by simp only [hsize],
        ⟨hposition, htrades, h.checkpoints, hquantity, hvolume, h.sellVolume⟩⟩
    | sell =>
      refine (add_same h.sellVolume ht.quantity).bind fun volume volume' hvolume => ?_
      exact .ok ⟨by simp only [hsize],
        ⟨hposition, htrades, h.checkpoints, hquantity, h.buyVolume, hvolume⟩⟩

/-- Trades are taken from both replays, or from neither; and if from neither, for the same
reason. -/
theorem enterAll_same (terms : Terms) (h : List.Forall₂ Trade.Same ts us) :
    ∀ {r s : Replay}, r.Same s →
      Agree SameAnswer (r.enterAll terms ts) (s.enterAll terms us) := by
  induction h with
  | nil =>
      intro r s hstate
      exact .ok ⟨rfl, hstate⟩
  | cons ht _ ih =>
      intro r s hstate
      rw [enterAll, enterAll]
      refine (enter_same terms hstate ht).bind fun x y hxy => ?_
      obtain ⟨first, r⟩ := x
      obtain ⟨first', s⟩ := y
      obtain ⟨hfirst, hstate⟩ := hxy
      cases first <;> cases first' <;> cases hfirst
      · exact .ok ⟨rfl, hstate⟩
      · refine (ih hstate).bind fun x y hxy => ?_
        obtain ⟨others, r⟩ := x
        obtain ⟨others', s⟩ := y
        obtain ⟨hothers, hstate⟩ := hxy
        refine .ok ⟨?_, hstate⟩
        cases others <;> cases others' <;> cases hothers <;> rfl

/-- As many trades are begun of both batches, and they are the same one by one.  The trade at which
a replay stops is the last of them. -/
theorem begun_same (terms : Terms) (h : List.Forall₂ Trade.Same ts us) :
    ∀ {r s : Replay}, r.Same s → List.Forall₂ Trade.Same (r.begun terms ts) (s.begun terms us) := by
  induction h with
  | nil =>
      intro r s _
      exact .nil
  | @cons t u ts us ht _ ih =>
      intro r s hstate
      have henter := enter_same terms hstate ht
      rw [begun, begun]
      generalize r.enter terms t = x, s.enter terms u = y at henter ⊢
      cases henter with
      | error fault => exact .cons ht .nil
      | @ok x y hxy =>
        obtain ⟨first, r⟩ := x
        obtain ⟨first', s⟩ := y
        obtain ⟨hfirst, hstate⟩ := hxy
        cases first <;> cases first' <;> cases hfirst
        · exact .cons ht .nil
        · exact .cons ht (ih hstate)

/-- **The same batch leaves the same state**, with the same checkpoints if it is taken and with the
same objection if not. -/
theorem append_same (terms : Terms) (hstate : r.Same s) (h : List.Forall₂ Trade.Same ts us) :
    Agree SameAnswer (r.append terms ts) (s.append terms us) := by
  unfold append
  rw [hstate.lastTime, objection?_same _ h]
  cases objection? terms.market.symbol (s.trades.back?.map (·.time)) us with
  | some e => exact .ok ⟨rfl, hstate⟩
  | none =>
    refine (enterAll_same terms h hstate).bind fun x y hxy => ?_
    obtain ⟨answer, r⟩ := x
    obtain ⟨answer', s⟩ := y
    obtain ⟨hanswer, hstate⟩ := hxy
    cases answer <;> cases answer' <;> cases hanswer
    · exact .ok ⟨rfl, hstate⟩
    · exact .ok ⟨rfl, { hstate with checkpoints := by rw [hstate.checkpoints] }⟩

end Replay

end CostBasis
