import CostBasis.Proofs.Position.Exposure
import CostBasis.Proofs.Position.Totals
import CostBasis.Proofs.Replay.Admission
import CostBasis.Proofs.Replay.Checkpoints

/-!
# Round trips

Nothing is open at a checkpoint, and nothing is left of what was but the totals.  So the rest of the
history goes on there as if it was the whole: a new position takes the rest of the trades in the
same way, and a new replay leaves the same checkpoints, as long as its totals do not run out of
range.  The totals of the history are the sums of those before the checkpoint and those after it, as
long as they are not rounded.

Main statement: `round_trips_independent`.
-/

namespace CostBasis

open Decimal

/-- The same checkpoint with `n` more trades before it. -/
def Checkpoint.shift (n : ℕ) (c : Checkpoint) : Checkpoint := { c with index := c.index + n }

namespace Replay

variable {terms : Terms} {r s r' s' : Replay} {t : Trade} {ts : List Trade} {n : ℕ}

/-- No total of the replay runs out of range by a trade that earns `gain?`. -/
structure HasRoom (terms : Terms) (r : Replay) (t : Trade) (gain? : Option Gain) : Prop where
  position : r.position.HasRoom terms t gain?
  bought : t.side = .buy → Yields (r.buyVolume.add t.quantity) fun _ => True
  sold : t.side = .sell → Yields (r.sellVolume.add t.quantity) fun _ => True

/-- The replay `s` is where `r` is but for the totals, with `n` trades less. -/
structure Trails (n : ℕ) (r s : Replay) : Prop where
  exposure : r.position.SameExposure s.position
  quantity : r.quantity = s.quantity
  trades : r.trades.size = s.trades.size + n

/-! ## Going on -/

/-- A replay with room takes the trade that another one takes, and leaves the same checkpoint, at
its own place. -/
theorem Trails.exists_enter {checkpoint : Option Checkpoint} {gain? : Option Gain}
    {p : Position} (h : Trails n r s) (hr : r.enter terms t = .ok (.ok checkpoint, r'))
    (happly : r.position.apply terms t = .ok (gain?, p)) (hroom : s.HasRoom terms t gain?) :
    ∃ other s', s.enter terms t = .ok (.ok other, s') ∧ Trails n r' s' ∧
      checkpoint = other.map (·.shift n) := by
  obtain ⟨q, hq, hsame⟩ :=
    Position.exists_apply_of_sameExposure h.exposure happly hroom.position
  obtain ⟨position, hposition, hr⟩ := bind_eq_ok.mp hr
  obtain ⟨quantity, hquantity, hr⟩ := bind_eq_ok.mp hr
  have hafter : s.position.after terms t = .ok q := map_eq_ok.mpr ⟨_, hq, rfl⟩
  obtain rfl : p = position := by
    rw [Position.after, happly] at hposition
    exact Except.ok.inj hposition
  rw [h.quantity] at hquantity
  have hsize : (r.trades.push t).size = (s.trades.push t).size + n := by
    rw [Array.size_push, Array.size_push, h.trades]
    omega
  have hcheckpoint : (if quantity.isZero then some ⟨r.trades.size, t.id, t.time⟩ else none) =
      Option.map (Checkpoint.shift n)
        (if quantity.isZero then some ⟨s.trades.size, t.id, t.time⟩ else none) := by
    rw [h.trades]
    split <;> rfl
  split at hr
  · cases hr
  next hequal =>
    rw [hsame.base] at hequal
    unfold enter
    rw [hafter, ok_bind, hquantity, ok_bind, if_neg hequal]
    cases hside : t.side <;> simp only [hside] at hr
    · obtain ⟨volume, hvolume, -⟩ := hroom.bought hside
      obtain ⟨_, -, hr⟩ := bind_eq_ok.mp hr
      obtain ⟨hfound, rfl⟩ := Prod.mk.inj (Except.ok.inj hr)
      obtain rfl := Except.ok.inj hfound
      rw [hvolume]
      exact ⟨_, _, rfl, ⟨hsame, rfl, hsize⟩, hcheckpoint⟩
    · obtain ⟨volume, hvolume, -⟩ := hroom.sold hside
      obtain ⟨_, -, hr⟩ := bind_eq_ok.mp hr
      obtain ⟨hfound, rfl⟩ := Prod.mk.inj (Except.ok.inj hr)
      obtain rfl := Except.ok.inj hfound
      rw [hvolume]
      exact ⟨_, _, rfl, ⟨hsame, rfl, hsize⟩, hcheckpoint⟩

/-- A run of the position `p` earns something with some trade of a list, and the totals of the
replay `s`, which has taken the trades before, have no room for this trade. -/
def RunsOut (terms : Terms) (p : Position) (s : Replay) (ts : List Trade) : Prop :=
  ∃ before t after q gain? q' found u, ts = before ++ t :: after ∧
    p.afterAll terms before = .ok q ∧ q.apply terms t = .ok (gain?, q') ∧
    s.enterAll terms before = .ok (.ok found, u) ∧ ¬u.HasRoom terms t gain?

/-- Totals that run out later on run out, if the trade before can be taken. -/
theorem RunsOut.cons {p q : Position} {checkpoint : Option Checkpoint}
    (hp : p.after terms t = .ok q) (hs : s.enter terms t = .ok (.ok checkpoint, s'))
    (h : RunsOut terms q s' ts) : RunsOut terms p s (t :: ts) := by
  obtain ⟨before, u, after, q₁, gain?, q', found, v, rfl, hall, happly, hv, hroom⟩ := h
  have hbefore : p.afterAll terms (t :: before) = .ok q₁ := by
    rw [Position.afterAll_cons, hp]
    exact hall
  have htaken := enterAll_cons_iff.mpr ⟨checkpoint, s', found, hs, hv, rfl⟩
  exact ⟨t :: before, u, after, q₁, gain?, q', _, v, rfl, hbefore, happly, htaken, hroom⟩

/-- A replay takes the trades that another one takes, and leaves the same checkpoints, unless its
totals run out of range.  The induction is on the trades, and each of them leaves the one replay
where the other one is but for the totals. -/
theorem Trails.exists_enterAll (ts : List Trade) : ∀ {r s : Replay} {found : List Checkpoint},
    Trails n r s → r.enterAll terms ts = .ok (.ok found, r') →
      RunsOut terms r.position s ts ∨ ∃ other s', s.enterAll terms ts = .ok (.ok other, s') ∧
        Trails n r' s' ∧ found = other.map (·.shift n) := by
  induction ts with
  | nil =>
      intro r s found h hr
      obtain ⟨hfound, rfl⟩ := Prod.mk.inj (Except.ok.inj hr)
      obtain rfl := Except.ok.inj hfound
      exact .inr ⟨[], s, rfl, h, rfl⟩
  | cons t ts ih =>
      intro r s found h hr
      obtain ⟨checkpoint, q, rest, henter, hrest, rfl⟩ := enterAll_cons_iff.mp hr
      have hafter := (enter_eq_ok henter).position
      obtain ⟨⟨gain?, _⟩, happly, -⟩ := map_eq_ok.mp hafter
      by_cases hroom : s.HasRoom terms t gain?
      · obtain ⟨other, s₁, hs₁, htrails, rfl⟩ := h.exists_enter henter happly hroom
        rcases ih htrails hrest with hout | ⟨others, s', hs', htrails', rfl⟩
        · exact .inl (hout.cons hafter hs₁)
        · refine .inr ⟨other.toList ++ others, s',
            enterAll_cons_iff.mpr ⟨other, s₁, others, hs₁, hs', rfl⟩, htrails', ?_⟩
          cases other <;> simp
      · exact .inl ⟨[], t, ts, r.position, gain?, _, [], s, rfl, rfl, happly, rfl, hroom⟩

/-- The totals of a replay that takes the trades do not run out of range: to take a trade it needs
the room. -/
theorem not_runsOut_of_enterAll {p : Position} {found : List Checkpoint}
    (hpositive : ∀ t ∈ ts, t.quantity.isPositive = true) (hsame : p.SameExposure s.position)
    (h : s.enterAll terms ts = .ok (.ok found, s')) : ¬RunsOut terms p s ts := by
  rintro ⟨before, t, after, q, gain?, q', found', u, rfl, hall, happly, hu, hroom⟩
  obtain ⟨first, u', second, hu', hrest, -⟩ := (enterAll_append_iff _ _).mp h
  obtain ⟨-, rfl⟩ := Prod.mk.inj (Except.ok.inj (hu.symm.trans hu'))
  obtain ⟨checkpoint, v, others, henter, -, -⟩ := enterAll_cons_iff.mp hrest
  have hentered := enter_eq_ok henter
  obtain ⟨applied, happlied, -⟩ := map_eq_ok.mp hentered.position
  have hsame' := hsame.afterAll before hall (taken_of_enterAll before hu).position
  refine hroom ⟨?_, fun hside => ?_, fun hside => ?_⟩
  · exact (Position.apply_iff_hasRoom (hpositive t (by simp)) hsame' happly).mp ⟨_, happlied⟩
  · exact ⟨_, (hentered.bought hside).1, trivial⟩
  · exact ⟨_, (hentered.sold hside).1, trivial⟩

/-! ## Sums of totals -/

/-- A replay adds a trade to its totals without rounding. -/
def AddsExactly (terms : Terms) (r : Replay) (t : Trade) : Prop :=
  r.position.AddsExactly terms t ∧
    match t.side with
    | .buy => ExactSum r.buyVolume t.quantity fun _ => True
    | .sell => ExactSum r.sellVolume t.quantity fun _ => True

/-- A replay adds every trade of a list to its totals without rounding. -/
def AddsAllExactly (terms : Terms) : Replay → List Trade → Prop
  | _, [] => True
  | r, t :: ts =>
    r.AddsExactly terms t ∧
      Yields (r.enter terms t) fun entered => entered.2.AddsAllExactly terms ts

section decidable

variable (terms : Terms)

instance (r : Replay) (t : Trade) : Decidable (r.AddsExactly terms t) := by
  unfold AddsExactly
  cases t.side <;> infer_instance

/-- Whether a list is added without rounding can be decided by adding it. -/
instance decidableAddsAllExactly :
    (r : Replay) → (ts : List Trade) → Decidable (r.AddsAllExactly terms ts)
  | _, [] => isTrue trivial
  | r, t :: ts =>
    have := fun r => decidableAddsAllExactly r ts
    inferInstanceAs (Decidable (r.AddsExactly terms t ∧
      Yields (r.enter terms t) fun entered => entered.2.AddsAllExactly terms ts))

end decidable

/-- What is added without rounding is so from every place on.  The induction is on the trades before
that place. -/
theorem AddsAllExactly.of_append {us : List Trade} (ts : List Trade) :
    ∀ {r : Replay} {found : List Checkpoint}, r.AddsAllExactly terms (ts ++ us) →
      r.enterAll terms ts = .ok (.ok found, s) → s.AddsAllExactly terms us := by
  induction ts with
  | nil =>
      intro r found h hr
      obtain ⟨-, rfl⟩ := Prod.mk.inj (Except.ok.inj hr)
      exact h
  | cons t ts ih =>
      intro r found h hr
      obtain ⟨checkpoint, q, rest, henter, hrest, -⟩ := enterAll_cons_iff.mp hr
      obtain ⟨-, entered, henter', htail⟩ := h
      obtain rfl := Except.ok.inj (henter.symm.trans henter')
      exact ih htail hrest

/-- The totals of `r` are the sums of those of `p` and `q`, and so are the numbers of trades. -/
structure Joins (p q r : Replay) : Prop where
  position : Position.Joins p.position q.position r.position
  buyVolume : r.buyVolume.toRat = p.buyVolume.toRat + q.buyVolume.toRat
  sellVolume : r.sellVolume.toRat = p.sellVolume.toRat + q.sellVolume.toRat
  trades : r.trades.size = p.trades.size + q.trades.size

/-- Before the second part, the whole is the first part. -/
theorem joins_start (p : Replay) : Joins p start p := by
  refine ⟨Position.joins_flat p.position, ?_, ?_, rfl⟩
  · simp [start]
  · simp [start]

/-- What is added to the volumes without rounding is added in numbers, to the volume of the side and
to no other. -/
theorem volumes_of_entered {checkpoint : Option Checkpoint} (h : Entered terms r t checkpoint s)
    (hexact : r.AddsExactly terms t) :
    s.buyVolume.toRat = r.buyVolume.toRat + (if t.side = .buy then t.quantity.toRat else 0) ∧
      s.sellVolume.toRat = r.sellVolume.toRat + if t.side = .sell then t.quantity.toRat else 0 := by
  obtain ⟨-, hvolume⟩ := hexact
  cases hside : t.side with
  | buy =>
    rw [hside] at hvolume
    obtain ⟨hbought, hsold⟩ := h.bought hside
    simp [hvolume.toRat_eq hbought, hsold]
  | sell =>
    rw [hside] at hvolume
    obtain ⟨hsold, hbought⟩ := h.sold hside
    simp [hvolume.toRat_eq hsold, hbought]

/-- A trade that is added to a part and to the whole leaves the whole the sum of its parts.  It
earns the same in both, since the same is open. -/
theorem Joins.enter {f : Replay} {checkpoint other : Option Checkpoint} (h : Joins f s r)
    (hsame : r.position.SameExposure s.position) (ht : t.quantity.isPositive = true)
    (hr : Entered terms r t checkpoint r') (hs : Entered terms s t other s')
    (er : r.AddsExactly terms t) (es : s.AddsExactly terms t) :
    Joins f s' r' ∧ r'.position.SameExposure s'.position := by
  obtain ⟨⟨gain?, p⟩, hp, hp'⟩ := map_eq_ok.mp hr.position
  obtain ⟨⟨other?, q⟩, hq, hq'⟩ := map_eq_ok.mp hs.position
  subst hp' hq'
  obtain ⟨rfl, hsame'⟩ := hsame.apply hp hq
  obtain ⟨fee, -, -, -, hfee, -⟩ := Position.apply_eq_ok ht hp
  obtain ⟨hrBought, hrSold⟩ := volumes_of_entered hr er
  obtain ⟨hsBought, hsSold⟩ := volumes_of_entered hs es
  refine ⟨⟨?_, ?_, ?_, ?_⟩, hsame'⟩
  · exact h.position.adds (Position.adds_of_apply ht hfee hq es.1)
      (Position.adds_of_apply ht hfee hp er.1)
  · rw [hrBought, hsBought, h.buyVolume, add_assoc]
  · rw [hrSold, hsSold, h.sellVolume, add_assoc]
  · rw [hr.trades, hs.trades, Array.size_push, Array.size_push, h.trades, Nat.add_assoc]

/-- Several trades that are added to a part and to the whole leave the whole the sum of its
parts. -/
theorem Joins.enterAll {f : Replay} (ts : List Trade) :
    ∀ {r s : Replay} {found others : List Checkpoint}, Joins f s r →
      r.position.SameExposure s.position → (∀ t ∈ ts, t.quantity.isPositive = true) →
      r.enterAll terms ts = .ok (.ok found, r') → s.enterAll terms ts = .ok (.ok others, s') →
      r.AddsAllExactly terms ts → s.AddsAllExactly terms ts → Joins f s' r' := by
  induction ts with
  | nil =>
      intro r s found others h _ _ hr hs _ _
      obtain ⟨-, rfl⟩ := Prod.mk.inj (Except.ok.inj hr)
      obtain ⟨-, rfl⟩ := Prod.mk.inj (Except.ok.inj hs)
      exact h
  | cons t ts ih =>
      intro r s found others h hsame hpositive hr hs er es
      obtain ⟨ht, hpositive⟩ := List.forall_mem_cons.mp hpositive
      obtain ⟨checkpoint, r₁, rest, hr₁, hr, -⟩ := enterAll_cons_iff.mp hr
      obtain ⟨other, s₁, rest', hs₁, hs, -⟩ := enterAll_cons_iff.mp hs
      obtain ⟨er, entered, hentered, hrTail⟩ := er
      obtain ⟨es, entered', hentered', hsTail⟩ := es
      obtain rfl := Except.ok.inj (hr₁.symm.trans hentered)
      obtain rfl := Except.ok.inj (hs₁.symm.trans hentered')
      obtain ⟨hjoins, hsame'⟩ := h.enter hsame ht (enter_eq_ok hr₁) (enter_eq_ok hs₁) er es
      exact ih hjoins hsame' hpositive hr hs hrTail hsTail

/-! ## What a checkpoint leaves -/

/-- Where nothing is open a replay is where a new one is, but for the totals: its position and its
sum are zero, and no cost is left. -/
theorem trails_start {found : List Checkpoint}
    (hpositive : ∀ u ∈ ts ++ [t], u.quantity.isPositive = true)
    (h : start.enterAll terms (ts ++ [t]) = .ok (.ok found, r))
    (hflat : r.position.isFlat = true) : Trails (ts.length + 1) r start := by
  have htaken := taken_of_enterAll _ h
  have hbase : r.position.base = .zero := Decimal.eq_zero_of_isZero hflat
  obtain ⟨p, hp, hlast⟩ := bind_eq_ok.mp ((Position.afterAll_append ..).symm.trans htaken.position)
  rw [Position.afterAll_cons] at hlast
  obtain ⟨q, hafter, hnil⟩ := bind_eq_ok.mp hlast
  obtain rfl : q = r.position := Except.ok.inj hnil
  obtain ⟨⟨gain?, q⟩, happly, hq⟩ := map_eq_ok.mp hafter
  change q = r.position at hq
  rw [hq] at happly
  have heffect := Position.effect_of_apply (hpositive t (by simp)) happly
  refine ⟨Position.sameExposure_flat hbase (heffect.cleared hflat), ?_, ?_⟩
  · have hinStep : start.InStep := rfl
    exact (hinStep.enterAll _ hpositive h).2.trans hbase
  · rw [← Array.length_toList, htaken.trades]
    simp [start]

/-- The history of a replay cut in two, where the first part leaves nothing open. -/
structure Cut (terms : Terms) (r : Replay) (front rest : List Trade)
    (found found' : List Checkpoint) (first last : Replay) : Prop where
  trades : r.trades.toList = front ++ rest
  fit : ∀ t ∈ front ++ rest, t.quantity.isPositive = true
  sound : objection? terms.market.symbol none front = none ∧
    objection? terms.market.symbol none rest = none
  takesFront : start.enterAll terms front = .ok (.ok found, first)
  takesRest : first.enterAll terms rest = .ok (.ok found', last)
  whole : r = { last with checkpoints := found ++ found' }
  trails : Trails front.length first start

/-- A checkpoint cuts the history in two, also where it stands in the middle of a batch.  The
batches are put together first, and the history is cut behind the trade of the checkpoint. -/
theorem Batches.exists_cut {calls : List (List Trade × List Checkpoint)} {c : Checkpoint}
    (h : Batches terms calls r) (hc : c ∈ r.checkpoints) :
    ∃ front rest found found' first last, front.length = c.index + 1 ∧
      Cut terms r front rest found found' first last := by
  obtain ⟨hr, -⟩ := h.replayed
  have happend := h.append_flatMap
  rw [← hr.trades] at happend hr
  obtain ⟨t, p, ht, hall, hflat, -, -⟩ := hr.mem_checkpoints.mp hc
  have hpositive : ∀ u ∈ r.trades.toList, u.quantity.isPositive = true :=
    fun u hu => (hr.fit u hu).quantity
  have hfront : r.trades.toList.take (c.index + 1) = r.trades.toList.take c.index ++ [t] := by
    rw [List.take_add_one, ht]
    rfl
  have hlength : (r.trades.toList.take c.index).length = c.index := by
    have := (List.getElem?_eq_some_iff.mp ht).1
    rw [List.length_take]
    omega
  have hsplit := (List.take_append_drop (c.index + 1) r.trades.toList).symm
  rw [hfront] at hall hsplit
  -- The replay takes the two parts one after the other.
  obtain ⟨hnone, q, hq, hwhole⟩ := append_iff.mp happend
  rw [hsplit] at hnone hq hpositive
  rw [objection?_append, Option.or_eq_none_iff] at hnone
  obtain ⟨found, m, found', hm, hrest, hfound⟩ := (enterAll_append_iff _ _).mp hq
  have hcheckpoints : q.checkpoints = [] := checkpoints_of_enterAll _ hq
  have hposition : m.position = p :=
    Except.ok.inj ((taken_of_enterAll _ hm).position.symm.trans hall)
  have htrails := trails_start (fun u hu => hpositive u (List.mem_append_left _ hu)) hm
    (hposition ▸ hflat)
  refine ⟨_, _, found, found', m, q, ?_, hsplit, hpositive, ⟨hnone.1, objection?_none_left hnone.2⟩,
    hm, hrest, ?_, ?_⟩
  · simp [hlength]
  · rw [hwhole, hcheckpoints, hfound]
    rfl
  · simpa using htrails

section cut

variable {front rest : List Trade} {found found' : List Checkpoint} {first last : Replay}
  (h : Cut terms r front rest found found' first last)

include h

/-- A new replay takes the second part exactly if its totals do not run out of range.  Nothing else
can stop it, as the second part was taken once. -/
theorem Cut.append_iff_not_runsOut :
    (∃ others second, start.append terms rest = .ok (.ok others, second)) ↔
      ¬RunsOut terms first.position start rest := by
  constructor
  · rintro ⟨others, second, hsecond⟩
    obtain ⟨-, s, hs, -⟩ := append_iff.mp hsecond
    exact not_runsOut_of_enterAll (fun t ht => h.fit t (List.mem_append_right _ ht))
      h.trails.exposure hs
  · intro hroom
    rcases h.trails.exists_enterAll rest h.takesRest with hout | ⟨others, s, hs, -, -⟩
    · exact absurd hout hroom
    · exact ⟨others, _, append_iff.mpr ⟨h.sound.2, s, hs, rfl⟩⟩

/-- The second part leads a new replay to the same place, with the checkpoints that follow, counted
from the cut on. -/
theorem Cut.append_eq {others : List Checkpoint} {second : Replay}
    (hsecond : start.append terms rest = .ok (.ok others, second)) :
    r.position.SameExposure second.position ∧
      r.checkpoints = found ++ others.map (·.shift front.length) ∧
      (start.AddsAllExactly terms r.trades.toList → start.AddsAllExactly terms rest →
        Joins first second r) := by
  have hroom := h.append_iff_not_runsOut.mp ⟨_, _, hsecond⟩
  obtain ⟨-, s, hs, rfl⟩ := append_iff.mp hsecond
  rcases h.trails.exists_enterAll rest h.takesRest with hout | ⟨others', s', hs', htrails, hothers⟩
  · exact absurd hout hroom
  · obtain ⟨hfound, rfl⟩ := Prod.mk.inj (Except.ok.inj (hs.symm.trans hs'))
    obtain rfl := Except.ok.inj hfound
    rw [h.whole]
    refine ⟨htrails.exposure, ?_, fun hall hrest => ?_⟩
    · rw [hothers]
    · rw [← h.whole, h.trades] at hall
      have hjoins := (joins_start first).enterAll rest h.trails.exposure
        (fun t ht => h.fit t (List.mem_append_right _ ht)) h.takesRest hs
        (hall.of_append front h.takesFront) hrest
      exact ⟨hjoins.position, hjoins.buyVolume, hjoins.sellVolume, hjoins.trades⟩

/-- The second part leads a new position from exposure to exposure as it leads the old one, trade by
trade. -/
theorem Cut.goes_on {before after : List Trade} (hrest : rest = before ++ t :: after) :
    ∃ p gain? p', Position.flat.afterAll terms (front ++ before) = .ok p ∧
      p.apply terms t = .ok (gain?, p') ∧
      ∀ q, Position.flat.afterAll terms before = .ok q → p.SameExposure q ∧
        ((∃ applied, q.apply terms t = .ok applied) ↔ q.HasRoom terms t gain?) ∧
        ∀ other? q', q.apply terms t = .ok (other?, q') → other? = gain? ∧ p'.SameExposure q' ∧
          ∀ price, p'.unrealizedProfit price = q'.unrealizedProfit price := by
  have hfront : Position.flat.afterAll terms front = .ok first.position :=
    (taken_of_enterAll front h.takesFront).position
  have hrun := (taken_of_enterAll rest h.takesRest).position
  have ht : t.quantity.isPositive = true := h.fit t (by simp [hrest])
  rw [hrest] at hrun
  obtain ⟨p, gain?, p', hp, happly, hsame⟩ := h.trails.exposure.goes_on ht hrun
  refine ⟨p, gain?, p', ?_, happly, hsame⟩
  rw [Position.afterAll_append, hfront]
  exact hp

end cut

end Replay

/-- **Round trips are independent.**  A replay has taken a history in batches, and there is a
checkpoint in it, which cuts the history in two.  A new position goes through the second part, trade
by trade, as the position of the history does: it takes the next trade exactly if its totals have
room, and then the trade earns the same, and the same is open, with the same costs, and with the
same profit at every price.  A new replay takes the second part, unless its totals run out of range,
and leaves the checkpoints that follow in the history.  And if no total of the history or of the
second part is rounded, the totals of the history are the sums of those of its parts.
Source: `add_trades`; specification, glossary, where a round trip lies between two checkpoints. -/
theorem round_trips_independent {terms : Terms} {calls : List (List Trade × List Checkpoint)}
    {r : Replay} {c : Checkpoint} (h : Replay.Batches terms calls r) (hc : c ∈ r.checkpoints) :
    ∃ front rest found first, r.trades.toList = front ++ rest ∧ front.length = c.index + 1 ∧
      Replay.start.append terms front = .ok (.ok found, first) ∧
      (∀ before t after, rest = before ++ t :: after → ∃ p gain? p',
        Position.flat.afterAll terms (front ++ before) = .ok p ∧
        p.apply terms t = .ok (gain?, p') ∧
        ∀ q, Position.flat.afterAll terms before = .ok q → p.SameExposure q ∧
          ((∃ applied, q.apply terms t = .ok applied) ↔ q.HasRoom terms t gain?) ∧
          ∀ other? q', q.apply terms t = .ok (other?, q') → other? = gain? ∧ p'.SameExposure q' ∧
            ∀ price, p'.unrealizedProfit price = q'.unrealizedProfit price) ∧
      ((∃ found' second, Replay.start.append terms rest = .ok (.ok found', second)) ↔
        ¬Replay.RunsOut terms first.position .start rest) ∧
      ∀ found' second, Replay.start.append terms rest = .ok (.ok found', second) →
        r.position.SameExposure second.position ∧
        r.checkpoints = found ++ found'.map (·.shift (c.index + 1)) ∧
        (Replay.start.AddsAllExactly terms r.trades.toList →
          Replay.start.AddsAllExactly terms rest → Replay.Joins first second r) := by
  obtain ⟨front, rest, found, found', first, last, hlength, hcut⟩ := h.exists_cut hc
  have hfirst : Replay.start.append terms front =
      .ok (.ok found, { first with checkpoints := first.checkpoints ++ found }) :=
    Replay.append_iff.mpr ⟨hcut.sound.1, first, hcut.takesFront, rfl⟩
  refine ⟨front, rest, found, _, hcut.trades, hlength, hfirst,
    fun before t after hrest => hcut.goes_on hrest, hcut.append_iff_not_runsOut,
    fun found' second hsecond => ?_⟩
  obtain ⟨hsame, hcheckpoints, hjoins⟩ := hcut.append_eq hsecond
  rw [hlength] at hcheckpoints
  refine ⟨hsame, hcheckpoints, fun hall hrest => ?_⟩
  have h := hjoins hall hrest
  exact ⟨h.position, h.buyVolume, h.sellVolume, h.trades⟩

/-- Two round trips, one after the other. -/
def sampleRoundTrips : List Trade := sampleHistory ++ [
  sampleTrade 6 .sell 96 2 1,
  sampleTrade 7 .buy 95 1 1,
  sampleTrade 8 .buy 94 1 1]

/-- The first round trip ends in the middle of a batch, and the second one is taken by a new
replay. -/
theorem round_trips_independent_sampleRoundTrips :
    ∃ r, Replay.Batches sampleTerms [(sampleRoundTrips.take 6, [⟨4, 5, ⟨5000⟩⟩]),
        (sampleRoundTrips.drop 6, [⟨7, 8, ⟨8000⟩⟩])] r ∧
      ⟨4, 5, ⟨5000⟩⟩ ∈ r.checkpoints ∧
      ∃ found first found' second,
        Replay.start.append sampleTerms (sampleRoundTrips.take 5) = .ok (.ok found, first) ∧
        Replay.start.append sampleTerms (sampleRoundTrips.drop 5) = .ok (.ok found', second) ∧
        r.checkpoints = found ++ found'.map (·.shift 5) ∧ Replay.Joins first second r := by
  have hrun : Yields (Replay.start.append sampleTerms (sampleRoundTrips.take 6)) fun first =>
      first.1 = .ok [⟨4, 5, ⟨5000⟩⟩] ∧
        Yields (first.2.append sampleTerms (sampleRoundTrips.drop 6)) fun second =>
          second.1 = .ok [⟨7, 8, ⟨8000⟩⟩] ∧ second.2.trades.toList = sampleRoundTrips ∧
            ⟨4, 5, ⟨5000⟩⟩ ∈ second.2.checkpoints := by decide +kernel
  obtain ⟨⟨_, q⟩, hq, rfl, ⟨_, r⟩, hr, rfl, htrades, hmem⟩ := hrun
  have hbatches : Replay.Batches sampleTerms [(sampleRoundTrips.take 6, [⟨4, 5, ⟨5000⟩⟩]),
      (sampleRoundTrips.drop 6, [⟨7, 8, ⟨8000⟩⟩])] r :=
    (Replay.Batches.none.snoc _ _ hq).snoc _ _ hr
  obtain ⟨front, rest, found, first, hsplit, hlength, hfirst, -, -, hsecond⟩ :=
    round_trips_independent hbatches hmem
  have hcut : sampleRoundTrips.take 5 ++ sampleRoundTrips.drop 5 = front ++ rest := by
    rw [List.take_append_drop, ← htrades, hsplit]
  obtain ⟨rfl, rfl⟩ := List.append_inj hcut hlength.symm
  have hrest : Yields (Replay.start.append sampleTerms (sampleRoundTrips.drop 5)) fun second =>
      second.1 = .ok [⟨2, 8, ⟨8000⟩⟩] := by decide +kernel
  obtain ⟨⟨_, second⟩, hrest, rfl⟩ := hrest
  obtain ⟨-, hcheckpoints, hjoins⟩ := hsecond _ second hrest
  have hexact : Replay.start.AddsAllExactly sampleTerms sampleRoundTrips ∧
      Replay.start.AddsAllExactly sampleTerms (sampleRoundTrips.drop 5) := by decide +kernel
  exact ⟨r, hbatches, hmem, found, first, _, second, hfirst, hrest, hcheckpoints,
    hjoins (htrades ▸ hexact.1) hexact.2⟩

end CostBasis
