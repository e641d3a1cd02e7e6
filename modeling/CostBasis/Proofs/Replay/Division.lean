import CostBasis.Proofs.Replay.Admission

/-!
# Any division of a history

A history may be given to a replay in any number of batches.  How it is cut makes no difference: the
batches are all taken exactly if the history is taken in one piece, and then the two replays are one
and the same state, down to the last digit, and have left the same checkpoints.  Where a batch is
rejected, the whole would have been rejected for the same trade and the same reason.

One cut is `append_append_iff`.  The rest is an induction on the batches, in which the replay is not
fixed, since each batch begins where the one before it ends.

Main statement: `any_division_agrees`.
-/

namespace CostBasis

namespace Replay

variable {terms : Terms} {r s : Replay} {ts : List Trade} {e : Rejection}

/-- Takes batches one after another, up to the first that is rejected, and says which checkpoints
they left together.
Source: calls of `add_trades` in a row. -/
def appendEach (terms : Terms) (r : Replay) :
    List (List Trade) → Except Fault (Except Rejection (List Checkpoint) × Replay)
  | [] => return (.ok [], r)
  | batch :: batches => do
    match ← r.append terms batch with
    | (.error e, r) => return (.error e, r)
    | (.ok first, r) => do
      let (others, r) ← r.appendEach terms batches
      return (others.map (first ++ ·), r)

/-- Batches are taken if the first one is, and the others from there, with the checkpoints of all of
them in their order. -/
theorem appendEach_cons_iff {batches : List (List Trade)} {found : List Checkpoint} :
    r.appendEach terms (ts :: batches) = .ok (.ok found, s) ↔
      ∃ first q others, r.append terms ts = .ok (.ok first, q) ∧
        q.appendEach terms batches = .ok (.ok others, s) ∧ found = first ++ others := by
  rw [appendEach]
  constructor
  · intro h
    obtain ⟨⟨taken, q⟩, happend, h⟩ := bind_eq_ok.mp h
    cases taken with
    | error reason => cases h
    | ok first =>
      obtain ⟨⟨answer, s'⟩, hothers, h⟩ := bind_eq_ok.mp h
      obtain ⟨hfound, rfl⟩ := Prod.mk.inj (Except.ok.inj h)
      obtain ⟨others, rfl, rfl⟩ := map_eq_ok.mp hfound
      exact ⟨first, q, others, happend, hothers, rfl⟩
  · rintro ⟨first, q, others, happend, hothers, rfl⟩
    rw [happend, ok_bind]
    simp only [hothers, ok_bind]
    rfl

/-- Of batches that are not all taken, the first one is rejected, or it is taken and one of the
others is rejected. -/
theorem appendEach_cons_eq_error {batches : List (List Trade)}
    (h : r.appendEach terms (ts :: batches) = .ok (.error e, s)) :
    r.append terms ts = .ok (.error e, s) ∨
      ∃ first q, r.append terms ts = .ok (.ok first, q) ∧
        q.appendEach terms batches = .ok (.error e, s) := by
  rw [appendEach] at h
  obtain ⟨⟨taken, q⟩, happend, h⟩ := bind_eq_ok.mp h
  cases taken with
  | error reason =>
    obtain ⟨hreason, rfl⟩ := Prod.mk.inj (Except.ok.inj h)
    obtain rfl := Except.error.inj hreason
    exact .inl happend
  | ok first =>
    obtain ⟨⟨others, s'⟩, hothers, h⟩ := bind_eq_ok.mp h
    obtain ⟨hreason, rfl⟩ := Prod.mk.inj (Except.ok.inj h)
    cases others with
    | ok rest => cases hreason
    | error reason =>
      obtain rfl := Except.error.inj hreason
      exact .inr ⟨first, q, happend, hothers⟩

/-- Batches are taken one after another exactly if they are taken in one piece.  The induction is on
the batches, from any replay. -/
theorem appendEach_iff (batches : List (List Trade)) : ∀ {r : Replay} {found : List Checkpoint},
    r.appendEach terms batches = .ok (.ok found, s) ↔
      r.append terms batches.flatten = .ok (.ok found, s) := by
  induction batches with
  | nil =>
      intro r found
      -- A batch without trades adds no checkpoints.
      have hnil : r.append terms [] = .ok (.ok [], r) := by
        rw [append_iff]
        exact ⟨rfl, r, rfl, by rw [List.append_nil]⟩
      rw [List.flatten_nil, hnil]
      rfl
  | cons batch batches ih =>
      intro r found
      rw [appendEach_cons_iff, List.flatten_cons, append_append_iff]
      simp only [ih]

/-! ## Rejections -/

/-- A replay rejects a batch for what is found when it is looked through, and for nothing else; and
it stays as it is. -/
theorem Reached.append_eq_error_iff (h : Reached terms r) :
    r.append terms ts = .ok (.error e, s) ↔
      objection? terms.market.symbol (r.trades.back?.map (·.time)) ts = some e ∧ s = r := by
  constructor
  · intro happend
    cases hobjection : objection? terms.market.symbol (r.trades.back?.map (·.time)) ts with
    | none =>
        obtain ⟨found, hfound⟩ := (h.inStep.append hobjection happend).1
        cases hfound
    | some e' =>
        obtain ⟨hreason, rfl⟩ := Prod.mk.inj (Except.ok.inj (happend.symm.trans
          (append_of_objection hobjection)))
        exact ⟨congrArg some (Except.error.inj hreason).symm, rfl⟩
  · rintro ⟨hobjection, rfl⟩
    exact append_of_objection hobjection

/-- What is wrong with a second part is what is wrong with the whole, and the whole leaves the
replay as it is. -/
theorem Reached.append_append_of_error {q : Replay} {first : List Checkpoint} {us : List Trade}
    (h : Reached terms r) (hfirst : r.append terms ts = .ok (.ok first, q))
    (hsecond : q.append terms us = .ok (.error e, s)) :
    r.append terms (ts ++ us) = .ok (.error e, r) := by
  obtain ⟨hobjection, -⟩ := (h.append _ _ hfirst).append_eq_error_iff.mp hsecond
  obtain ⟨hnone, m, hall, rfl⟩ := append_iff.mp hfirst
  rw [lastTime_of_taken (taken_of_enterAll ts hall)] at hobjection
  apply append_of_objection
  rw [objection?_append, hnone, Option.none_or, hobjection]

/-- If one of several batches is rejected, they are rejected in one piece, for the same reason.  The
state differs: of the division, the batches before it have been taken. -/
theorem Reached.append_flatten_of_error (batches : List (List Trade)) : ∀ {r : Replay},
    Reached terms r → r.appendEach terms batches = .ok (.error e, s) →
      r.append terms batches.flatten = .ok (.error e, r) := by
  induction batches with
  | nil =>
      intro r _ heach
      cases heach
  | cons batch batches ih =>
      intro r h heach
      rw [List.flatten_cons]
      rcases appendEach_cons_eq_error heach with hrejected | ⟨first, q, hfirst, hothers⟩
      · obtain ⟨hobjection, -⟩ := h.append_eq_error_iff.mp hrejected
        apply append_of_objection
        rw [objection?_append, hobjection, Option.some_or]
      · exact h.append_append_of_error hfirst (ih (h.append _ _ hfirst) hothers)

end Replay

/-- **Batching does not matter.**  Two batches are taken one after the other exactly if they are
taken as one, which leaves the same replay and the checkpoints of the first, followed by those of
the second.  So every division of a history into batches leaves the replay and the checkpoints that
the undivided history leaves.  If a batch of a division is rejected, the undivided history is
rejected for the same reason.
Source: `add_trades`. -/
theorem any_division_agrees {terms : Terms} {r : Replay} (h : Replay.Reached terms r) :
    (∀ ts us found s, r.append terms (ts ++ us) = .ok (.ok found, s) ↔
      ∃ first q second, r.append terms ts = .ok (.ok first, q) ∧
        q.append terms us = .ok (.ok second, s) ∧ found = first ++ second) ∧
    (∀ batches found s, r.appendEach terms batches = .ok (.ok found, s) ↔
      r.append terms batches.flatten = .ok (.ok found, s)) ∧
    ∀ batches e s, r.appendEach terms batches = .ok (.error e, s) →
      r.append terms batches.flatten = .ok (.error e, r) :=
  ⟨fun _ _ _ _ => Replay.append_append_iff, fun batches _ _ => Replay.appendEach_iff batches,
    fun batches _ _ => h.append_flatten_of_error batches⟩

/-- After two trades of the sample history, the other three in one piece and in three batches, of
which the second is empty. -/
theorem any_division_agrees_sampleHistory :
    Yields (Replay.start.append sampleTerms (sampleHistory.take 2)) fun first =>
      Replay.Reached sampleTerms first.2 ∧
      ∃ s, first.2.append sampleTerms (sampleHistory.drop 2) = .ok (.ok [⟨4, 5, ⟨5000⟩⟩], s) ∧
        first.2.appendEach sampleTerms
          [[sampleTrade 3 .sell 103 1 1], [], sampleHistory.drop 3] =
            .ok (.ok [⟨4, 5, ⟨5000⟩⟩], s) := by
  have hrun : Yields (Replay.start.append sampleTerms (sampleHistory.take 2)) fun first =>
      Yields (first.2.append sampleTerms (sampleHistory.drop 2)) fun whole =>
        whole.1 = .ok [⟨4, 5, ⟨5000⟩⟩] := by decide +kernel
  obtain ⟨⟨answer, r⟩, hr, ⟨_, s⟩, hwhole, rfl⟩ := hrun
  have hreached : Replay.Reached sampleTerms r := Replay.Reached.start.append _ answer hr
  obtain ⟨-, hdivision, -⟩ := any_division_agrees hreached
  exact ⟨_, hr, hreached, s, hwhole, (hdivision _ _ s).mpr hwhole⟩

end CostBasis
