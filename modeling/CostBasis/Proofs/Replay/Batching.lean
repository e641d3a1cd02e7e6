import CostBasis.Proofs.Replay.Run

/-!
# Batches taken together

A batch may be cut in two, and batches may be put together: a replay takes the parts one after
another if it takes the whole, with the same checkpoints, and comes to the same state.  For the
looking through this is so because a part is looked through from the time at which the part before
it ends; for the taking because no trade looks at the checkpoints.

Main statements: `append_append_iff`, `Batches.append_flatMap`.
-/

namespace CostBasis

namespace Replay

variable {terms : Terms} {r s : Replay} {t : Trade} {ts us : List Trade} {found : List Checkpoint}

/-! ## Looking through a batch -/

/-- The time of the last trade, where `last` is the time of the one before the list. -/
def lastTime (last : Option Instant) (ts : List Trade) : Option Instant :=
  (ts.getLast?.map (·.time)).or last

/-- Behind the first trade, its time is the one before the list. -/
theorem lastTime_cons (last : Option Instant) (t : Trade) (ts : List Trade) :
    lastTime last (t :: ts) = lastTime (some t.time) ts := by
  unfold lastTime
  rw [List.getLast?_cons]
  cases ts.getLast? <;> rfl

/-- A list is looked through part by part: the second part from the time at which the first one
ends. -/
theorem objection?_append (symbol : String) (us : List Trade) (ts : List Trade) :
    ∀ last, objection? symbol last (ts ++ us) =
      (objection? symbol last ts).or (objection? symbol (lastTime last ts) us) := by
  induction ts with
  | nil =>
      intro last
      rfl
  | cons t ts ih =>
      intro last
      rw [List.cons_append, objection?, objection?, lastTime_cons]
      split
      · rfl
      · cases flaw? last t with
        | some flaw => rfl
        | none => exact ih _

/-- A trade without flaws after another one has none without it. -/
theorem flaw?_none_left {last : Option Instant} (h : flaw? last t = none) :
    flaw? none t = none := by
  obtain ⟨hquantity, hprice, hfee⟩ := flaw?_eq_none h
  simp [flaw?, hquantity, hprice, hfee]

/-- A list without objections after a trade has none without it.  To have a trade before it is one
thing more that may be objected to. -/
theorem objection?_none_left {symbol : String} {last : Option Instant}
    (h : objection? symbol last ts = none) : objection? symbol none ts = none := by
  cases ts with
  | nil => rfl
  | cons t ts =>
    rw [objection?] at h ⊢
    split at h
    · cases h
    next hsymbol =>
      rw [if_neg hsymbol]
      cases hflaw : flaw? last t with
      | some flaw =>
        rw [hflaw] at h
        cases h
      | none =>
        rw [hflaw] at h
        rw [flaw?_none_left hflaw]
        exact h

/-! ## Taking trades -/

/-- A replay takes a trade whatever its checkpoints are, and keeps them.  So they can be added when
the whole batch has been taken. -/
theorem enter_checkpoints (terms : Terms) (r : Replay) (cs : List Checkpoint) (t : Trade) :
    { r with checkpoints := cs }.enter terms t =
      (r.enter terms t).map fun entered => (entered.1, { entered.2 with checkpoints := cs }) := by
  unfold enter
  cases r.position.after terms t with
  | error fault => rfl
  | ok position =>
    cases r.quantity.add t.signedQuantity with
    | error fault => rfl
    | ok quantity =>
      simp only [ok_bind]
      split
      · rfl
      · cases t.side with
        | buy => cases r.buyVolume.add t.quantity <;> rfl
        | sell => cases r.sellVolume.add t.quantity <;> rfl

/-- So it is with several trades: the checkpoints that are there already play no part, and stay. -/
theorem enterAll_checkpoints (terms : Terms) (cs : List Checkpoint) (ts : List Trade) :
    ∀ r : Replay, { r with checkpoints := cs }.enterAll terms ts =
      (r.enterAll terms ts).map fun taken => (taken.1, { taken.2 with checkpoints := cs }) := by
  induction ts with
  | nil =>
      intro r
      rfl
  | cons t ts ih =>
      intro r
      rw [enterAll, enterAll, enter_checkpoints]
      cases r.enter terms t with
      | error fault => rfl
      | ok entered =>
        obtain ⟨reason | checkpoint, q⟩ := entered
        · rfl
        · simp only [Except.map, ok_bind]
          rw [ih q]
          cases q.enterAll terms ts <;> rfl

/-- Trades are taken part by part.  What the first part leaves is where the second one starts, and
the checkpoints of both are put together. -/
theorem enterAll_append_iff (us : List Trade) (ts : List Trade) :
    ∀ {r : Replay} {found : List Checkpoint}, r.enterAll terms (ts ++ us) = .ok (.ok found, s) ↔
      ∃ first q second, r.enterAll terms ts = .ok (.ok first, q) ∧
        q.enterAll terms us = .ok (.ok second, s) ∧ found = first ++ second := by
  induction ts with
  | nil =>
      intro r found
      constructor
      · intro h
        exact ⟨[], r, found, rfl, h, rfl⟩
      · rintro ⟨first, q, second, hfirst, hsecond, rfl⟩
        obtain ⟨hnil, rfl⟩ := Prod.mk.inj (Except.ok.inj hfirst)
        obtain rfl := Except.ok.inj hnil
        exact hsecond
  | cons t ts ih =>
      intro r found
      rw [List.cons_append, enterAll_cons_iff]
      constructor
      · rintro ⟨checkpoint, q, rest, henter, hrest, rfl⟩
        obtain ⟨first, q', second, hfirst, hsecond, rfl⟩ := ih.mp hrest
        exact ⟨_, q', second, enterAll_cons_iff.mpr ⟨checkpoint, q, first, henter, hfirst, rfl⟩,
          hsecond, (List.append_assoc ..).symm⟩
      · rintro ⟨first, q', second, hfirst, hsecond, rfl⟩
        obtain ⟨checkpoint, q, rest, henter, hrest, rfl⟩ := enterAll_cons_iff.mp hfirst
        exact ⟨checkpoint, q, _, henter, ih.mpr ⟨rest, q', second, hrest, hsecond, rfl⟩,
          List.append_assoc ..⟩

/-! ## Taking batches -/

/-- The time of the last trade that a replay has taken, be it of this batch or of one before it. -/
theorem lastTime_of_taken {q : Replay} (h : Taken terms r ts found q) :
    q.trades.back?.map (·.time) = lastTime (r.trades.back?.map (·.time)) ts := by
  unfold lastTime
  rw [← Array.getLast?_toList, ← Array.getLast?_toList, h.trades, List.getLast?_append,
    Option.map_or]

/-- **A batch may be cut in two.**  A replay takes it exactly if it takes the two parts one after
the other, with the checkpoints of both, and comes to the same state. -/
theorem append_append_iff : r.append terms (ts ++ us) = .ok (.ok found, s) ↔
    ∃ first q second, r.append terms ts = .ok (.ok first, q) ∧
      q.append terms us = .ok (.ok second, s) ∧ found = first ++ second := by
  rw [append_iff, objection?_append, Option.or_eq_none_iff]
  constructor
  · rintro ⟨⟨hfirst, hsecond⟩, q, hall, rfl⟩
    obtain ⟨first, m, second, hts, hus, rfl⟩ := (enterAll_append_iff us ts).mp hall
    have hm := taken_of_enterAll ts hts
    rw [← lastTime_of_taken hm] at hsecond
    refine ⟨first, { m with checkpoints := m.checkpoints ++ first }, second,
      append_iff.mpr ⟨hfirst, m, hts, rfl⟩, append_iff.mpr
        ⟨hsecond, { q with checkpoints := m.checkpoints ++ first }, ?_, ?_⟩, rfl⟩
    · rw [enterAll_checkpoints, hus]
      rfl
    · rw [checkpoints_of_enterAll us hus, List.append_assoc]
  · rintro ⟨first, _, second, happend, happend', rfl⟩
    obtain ⟨hfirst, m, hts, rfl⟩ := append_iff.mp happend
    obtain ⟨hsecond, _, hkept, rfl⟩ := append_iff.mp happend'
    rw [enterAll_checkpoints] at hkept
    obtain ⟨⟨_, q⟩, hus, htaken⟩ := map_eq_ok.mp hkept
    obtain ⟨rfl, rfl⟩ := Prod.mk.inj htaken
    rw [← lastTime_of_taken (taken_of_enterAll ts hts)]
    refine ⟨⟨hfirst, hsecond⟩, q, (enterAll_append_iff us ts).mpr ⟨first, m, second, hts, hus, rfl⟩,
      ?_⟩
    rw [checkpoints_of_enterAll us hus, List.append_assoc]

/-- The batches that a replay has taken might as well have been one.  The induction adds one batch
at the end. -/
theorem Batches.append_flatMap {calls : List (List Trade × List Checkpoint)}
    (h : Batches terms calls r) :
    start.append terms (calls.flatMap (·.1)) = .ok (.ok (calls.flatMap (·.2)), r) := by
  induction h with
  | none => rfl
  | snoc batch found _ happend ih =>
      rw [List.flatMap_append, List.flatMap_append, List.flatMap_singleton, List.flatMap_singleton]
      exact append_append_iff.mpr ⟨_, _, _, ih, happend, rfl⟩

end Replay

end CostBasis
