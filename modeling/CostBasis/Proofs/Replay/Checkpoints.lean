import CostBasis.Proofs.Decimal.Fit
import CostBasis.Proofs.Position.Tally
import CostBasis.Proofs.Replay.Run

/-!
# Where a replay leaves checkpoints

The checkpoints of a replay are those that its position leaves, and the open amount of a position is
the sum of the signed quantities, as long as no such sum is rounded.  So the checkpoints stand for
the trades after which the sum is zero, whatever batches the trades came in.  A trade that reverses
the position goes past zero, and leaves none.

Main statement: `checkpoints_correct`.
-/

namespace CostBasis

open Decimal

/-! ## The open amount as a sum -/

namespace Position

variable {terms : Terms} {p q : Position} {t : Trade}

/-- Without rounding the open amount is the sum of the signed quantities.  Only the sums that the
run passes through need to be representable, which are those over its beginnings. -/
theorem toRat_base_of_afterAll (ts : List Trade) : ∀ {p : Position},
    (∀ t ∈ ts, t.quantity.isPositive = true) →
      (∀ us, us <+: ts → Representable (p.base.toRat + netQuantity us)) →
        p.afterAll terms ts = .ok q → q.base.toRat = p.base.toRat + netQuantity ts := by
  induction ts with
  | nil =>
      intro p _ _ h
      obtain rfl := Except.ok.inj h
      rw [netQuantity_nil, add_zero]
  | cons t ts ih =>
      intro p hpositive hexact h
      obtain ⟨hquantity, hpositive⟩ := List.forall_mem_cons.mp hpositive
      rw [afterAll_cons] at h
      obtain ⟨p', hafter, h⟩ := bind_eq_ok.mp h
      obtain ⟨⟨gain?, p'⟩, happly, rfl⟩ := map_eq_ok.mp hafter
      have hbase : p'.base.toRat = p.base.toRat + t.signedQuantity.toRat := by
        have hfirst := hexact [t] ⟨ts, rfl⟩
        rw [netQuantity_cons, netQuantity_nil, add_zero] at hfirst
        obtain ⟨base, hadd, hvalue, -⟩ :=
          exactSum_of_representable (P := fun _ => True) hfirst fun _ _ => trivial
        obtain rfl := Except.ok.inj (hadd.symm.trans (effect_of_apply hquantity happly).base)
        exact hvalue
      rw [ih hpositive (fun us hus => ?_) h, hbase, netQuantity_cons, add_assoc]
      rw [hbase, add_assoc, ← netQuantity_cons]
      exact hexact (t :: us) ((List.prefix_cons_inj t).mpr hus)

/-- The trade closes the position and opens one of the other direction. -/
def Reverses (p : Position) (t : Trade) : Prop :=
  ¬p.extendedBy t = true ∧ |p.base.toRat| < t.quantity.toRat

/-- A reversal goes past zero, and does not stop there. -/
theorem base_ne_zero_of_reverses (hq : 0 < t.quantity.toRat) (h : p.Reverses t) :
    p.base.toRat + t.signedQuantity.toRat ≠ 0 := by
  obtain ⟨hagainst, hlt⟩ := h
  rw [Trade.toRat_signedQuantity]
  exact moved_ne_zero_of_lt (side_of_not_extendedBy hq hagainst).2 hlt

end Position

/-! ## The places of checkpoints -/

namespace Replay

variable {terms : Terms} {r : Replay} {p : Position} {c : Checkpoint} {i : Nat}

/-- A checkpoint stands for a trade after which the position is flat, and has its place, its number
and its time.  The induction is on the trades; each of them moves the places of the others by
one. -/
theorem mem_closings (ts : List Trade) : ∀ {p : Position} {i : Nat},
    c ∈ closings terms p i ts ↔ ∃ k t q, ts[k]? = some t ∧
      p.afterAll terms (ts.take (k + 1)) = .ok q ∧ q.isFlat = true ∧
        c = ⟨i + k, t.id, t.time⟩ := by
  induction ts with
  | nil =>
      intro p i
      simp [closings]
  | cons t ts ih =>
      intro p i
      cases hafter : p.after terms t with
      | error fault =>
          have hnone : closings terms p i (t :: ts) = [] := by rw [closings, hafter]
          rw [hnone]
          -- The walk ends here, and so does every run through this trade.
          refine iff_of_false List.not_mem_nil ?_
          rintro ⟨k, u, q, -, hall, -⟩
          rw [List.take_succ_cons, Position.afterAll_cons, hafter] at hall
          cases hall
      | ok q =>
          have htail : ∀ k,
              p.afterAll terms ((t :: ts).take (k + 1)) = q.afterAll terms (ts.take k) := by
            intro k
            rw [List.take_succ_cons, Position.afterAll_cons, hafter, ok_bind]
          rw [closings_cons hafter, List.mem_append, ih]
          constructor
          · rintro (hhead | ⟨k, u, q', hu, hall, hflat, rfl⟩)
            · split at hhead
              next hflat =>
                exact ⟨0, t, q, rfl, htail 0, hflat, List.mem_singleton.mp hhead⟩
              next => exact absurd hhead List.not_mem_nil
            · exact ⟨k + 1, u, q', hu, (htail (k + 1)).trans hall, hflat, by
                rw [Nat.add_assoc, Nat.add_comm 1]⟩
          · rintro ⟨k, u, q', hu, hall, hflat, rfl⟩
            rw [htail] at hall
            cases k with
            | zero =>
                obtain rfl : t = u := Option.some.inj hu
                obtain rfl : q = q' := Except.ok.inj hall
                exact .inl (by rw [if_pos hflat]; exact List.mem_singleton_self _)
            | succ k =>
                exact .inr ⟨k, u, q', hu, hall, hflat, by rw [Nat.add_assoc, Nat.add_comm 1]⟩

/-- The checkpoints of a list lie in it. -/
theorem index_of_mem_closings {ts : List Trade} (h : c ∈ closings terms p i ts) :
    i ≤ c.index ∧ c.index < i + ts.length := by
  obtain ⟨k, t, q, ht, -, -, rfl⟩ := (mem_closings ts).mp h
  exact ⟨Nat.le_add_right i k,
    Nat.add_lt_add_left (List.getElem?_eq_some_iff.mp ht).1 i⟩

/-- The checkpoints of a list come in the order of the trades, and no trade leaves two. -/
theorem pairwise_closings (ts : List Trade) : ∀ {p : Position} {i : Nat},
    (closings terms p i ts).Pairwise fun c d => c.index < d.index := by
  induction ts with
  | nil =>
      intro p i
      exact .nil
  | cons t ts ih =>
      intro p i
      rw [closings]
      split
      · exact .nil
      · rw [List.pairwise_append]
        refine ⟨by split <;> simp, ih, fun c hc d hd => ?_⟩
        obtain rfl : c = ⟨i, t.id, t.time⟩ := by
          split at hc
          · exact List.mem_singleton.mp hc
          · exact absurd hc List.not_mem_nil
        exact (index_of_mem_closings hd).1

/-- Of the checkpoints of a history those of a part are the ones that lie in it.  Those before it
have a smaller place, and those behind it a larger one. -/
theorem filter_closings {q : Position} (ts us vs : List Trade)
    (h : Position.flat.afterAll terms ts = .ok p) (h' : p.afterAll terms us = .ok q) :
    (closings terms .flat 0 (ts ++ us ++ vs)).filter
        (fun c => ts.length ≤ c.index ∧ c.index < ts.length + us.length) =
      closings terms p ts.length us := by
  have hboth : Position.flat.afterAll terms (ts ++ us) = .ok q := by
    rw [Position.afterAll_append, h]
    exact h'
  rw [closings_append (ts ++ us) vs hboth, closings_append ts us h, List.filter_append,
    List.filter_append, Nat.zero_add, Nat.zero_add, List.length_append]
  have hbefore : (closings terms .flat 0 ts).filter
      (fun c => ts.length ≤ c.index ∧ c.index < ts.length + us.length) = [] := by
    refine List.filter_eq_nil_iff.mpr fun c hc => ?_
    have := (index_of_mem_closings hc).2
    simp
    omega
  have hthere : (closings terms p ts.length us).filter
      (fun c => ts.length ≤ c.index ∧ c.index < ts.length + us.length) =
        closings terms p ts.length us :=
    List.filter_eq_self.mpr fun c hc => by simpa using index_of_mem_closings hc
  have hbehind : (closings terms q (ts.length + us.length) vs).filter
      (fun c => ts.length ≤ c.index ∧ c.index < ts.length + us.length) = [] := by
    refine List.filter_eq_nil_iff.mpr fun c hc => ?_
    have := (index_of_mem_closings hc).1
    simp
    omega
  rw [hbefore, hthere, hbehind, List.nil_append, List.append_nil]

/-! ## The checkpoints of a history -/

section history

variable {ts : List Trade} (h : Replayed terms ts r)

include h

/-- There is a checkpoint for exactly those trades after which the position is flat, with their
places, numbers and times. -/
theorem Replayed.mem_checkpoints : c ∈ r.checkpoints ↔ ∃ t q, ts[c.index]? = some t ∧
    Position.flat.afterAll terms (ts.take (c.index + 1)) = .ok q ∧ q.isFlat = true ∧
      c.tradeId = t.id ∧ c.time = t.time := by
  rw [h.checkpoints, mem_closings]
  constructor
  · rintro ⟨k, t, q, ht, hall, hflat, rfl⟩
    rw [Nat.zero_add]
    exact ⟨t, q, ht, hall, hflat, rfl, rfl⟩
  · rintro ⟨t, q, ht, hall, hflat, hid, htime⟩
    exact ⟨c.index, t, q, ht, hall, hflat, by rw [Nat.zero_add, ← hid, ← htime]⟩

/-- There is a checkpoint for a trade exactly if nothing is open after it.
Source: specification, sections 3 and 4.5. -/
theorem Replayed.exists_checkpoint_iff {t : Trade} (ht : ts[i]? = some t)
    (hall : Position.flat.afterAll terms (ts.take (i + 1)) = .ok p) :
    (∃ c ∈ r.checkpoints, c.index = i) ↔ p.base.toRat = 0 := by
  rw [← isZero_iff]
  constructor
  · rintro ⟨c, hc, rfl⟩
    obtain ⟨-, q, -, hall', hflat, -⟩ := h.mem_checkpoints.mp hc
    obtain rfl := Except.ok.inj (hall'.symm.trans hall)
    exact hflat
  · intro hflat
    exact ⟨⟨i, t.id, t.time⟩, h.mem_checkpoints.mpr ⟨t, p, ht, hall, hflat, rfl, rfl⟩, rfl⟩

/-- Without rounding the open amount after any part of the history is the sum of its quantities,
whatever batches it came in. -/
theorem Replayed.toRat_base (hexact : ∀ us, us <+: ts → Representable (netQuantity us))
    {us : List Trade} (hus : us <+: ts) (hall : Position.flat.afterAll terms us = .ok p) :
    p.base.toRat = netQuantity us := by
  have hzero : Position.flat.base.toRat = 0 := toRat_zero
  have hsum := Position.toRat_base_of_afterAll us
    (fun t ht => (h.fit t (hus.subset ht)).quantity)
    (fun vs hvs => by
      rw [hzero, zero_add]
      exact hexact vs (hvs.trans hus)) hall
  rwa [hzero, zero_add] at hsum

end history

/-! ## Batches -/

variable {calls : List (List Trade × List Checkpoint)}

/-- A batch among others was answered with the checkpoints that its trades leave from where the
earlier ones have led. -/
theorem Batches.exists_found (h : Batches terms calls r) :
    ∀ {earlier later : List (List Trade × List Checkpoint)} {batch : List Trade}
      {found : List Checkpoint}, calls = earlier ++ (batch, found) :: later →
        ∃ p q, Position.flat.afterAll terms (earlier.flatMap (·.1)) = .ok p ∧
          p.afterAll terms batch = .ok q ∧
            found = closings terms p (earlier.flatMap (·.1)).length batch := by
  induction h with
  | none =>
      intro earlier later batch found hcalls
      simp at hcalls
  | @snoc calls r s lastBatch lastFound h happend ih =>
      intro earlier later batch found hcalls
      -- The batch is the last one, or it is one of those before.
      rcases later.eq_nil_or_concat with rfl | ⟨later, last, rfl⟩
      · obtain ⟨rfl, hlast⟩ := List.append_inj' hcalls rfl
        obtain ⟨rfl, rfl⟩ := Prod.mk.inj (List.singleton_inj.mp hlast)
        obtain ⟨hr, -⟩ := h.replayed
        obtain ⟨-, hs⟩ := append_eq_ok happend
        exact ⟨r.position, s.position, hr.position, hs.position, by
          rw [hs.found, ← hr.trades, Array.length_toList]⟩
      · rw [List.concat_eq_append, ← List.cons_append, ← List.append_assoc] at hcalls
        exact ih (List.append_inj_left' hcalls rfl)

/-- The answer to a batch is the part of all checkpoints that lies in the batch.
Source: what `add_trades` returns. -/
theorem Batches.found_eq_filter (h : Batches terms calls r)
    {earlier later : List (List Trade × List Checkpoint)} {batch : List Trade}
    {found : List Checkpoint} (hcalls : calls = earlier ++ (batch, found) :: later) :
    found = r.checkpoints.filter fun c => (earlier.flatMap (·.1)).length ≤ c.index ∧
      c.index < (earlier.flatMap (·.1)).length + batch.length := by
  obtain ⟨p, q, hp, hq, rfl⟩ := h.exists_found hcalls
  rw [h.replayed.1.checkpoints, hcalls, List.flatMap_append, List.flatMap_cons,
    ← List.append_assoc, filter_closings _ _ _ hp hq]

end Replay

/-- **Checkpoints are right.**  A replay has taken batches, and no partial sum of their signed
quantities would be rounded.  Its checkpoints stand, in the order of the trades, for exactly those
trades after which the sum is zero, with their numbers and times.  Each batch was answered with the
checkpoints in it.  There is a checkpoint for a trade exactly if nothing is open after the trade,
and then nothing has a cost.  A reversal leaves none.
Source: checkpoint correctness; specification, section 8. -/
theorem checkpoints_correct {terms : Terms} {calls : List (List Trade × List Checkpoint)}
    {r : Replay} (h : Replay.Batches terms calls r)
    (hexact : ∀ us, us <+: r.trades.toList → Representable (netQuantity us)) :
    r.trades.toList = calls.flatMap (·.1) ∧
    Position.flat.afterAll terms r.trades.toList = .ok r.position ∧
    (r.checkpoints.Pairwise fun c d => c.index < d.index) ∧
    (∀ c, c ∈ r.checkpoints ↔ ∃ t, r.trades[c.index]? = some t ∧
      netQuantity (r.trades.toList.take (c.index + 1)) = 0 ∧ c.tradeId = t.id ∧ c.time = t.time) ∧
    (∀ earlier batch found later, calls = earlier ++ (batch, found) :: later →
      let first := (earlier.flatMap (·.1)).length
      found = r.checkpoints.filter
        fun c => first ≤ c.index ∧ c.index < first + batch.length) ∧
    ∀ i t, r.trades[i]? = some t → ∃ p q,
      Position.flat.afterAll terms (r.trades.toList.take i) = .ok p ∧ p.after terms t = .ok q ∧
      ((∃ c ∈ r.checkpoints, c.index = i) ↔ q.base.toRat = 0) ∧
      (q.base.toRat = 0 → q.costBasis = .zero ∧ q.netCostBasis = .zero ∧
        q.averageCost = .zero ∧ q.netAverageCost = .zero) ∧
      (p.Reverses t → ∀ c ∈ r.checkpoints, c.index ≠ i) := by
  obtain ⟨hr, -⟩ := h.replayed
  have htrades := hr.trades
  rw [← htrades] at hr
  refine ⟨htrades, hr.position, hr.checkpoints ▸ Replay.pairwise_closings _, fun c => ?_,
    fun earlier batch found later => h.found_eq_filter, fun i t ht => ?_⟩
  · rw [hr.mem_checkpoints]
    constructor
    · rintro ⟨t, q, ht, hall, hflat, hid, htime⟩
      rw [← hr.toRat_base hexact (List.take_prefix ..) hall]
      exact ⟨t, Array.getElem?_toList ▸ ht, (isZero_iff _).mp hflat, hid, htime⟩
    · rintro ⟨t, ht, hsum, hid, htime⟩
      rw [← Array.getElem?_toList] at ht
      obtain ⟨-, q, -, -, hall⟩ := Position.exists_after_of_getElem? hr.position ht
      rw [← hr.toRat_base hexact (List.take_prefix ..) hall] at hsum
      exact ⟨t, q, ht, hall, (isZero_iff _).mpr hsum, hid, htime⟩
  · rw [← Array.getElem?_toList] at ht
    obtain ⟨p, q, hbefore, hafter, hall⟩ := Position.exists_after_of_getElem? hr.position ht
    obtain ⟨⟨gain?, q⟩, happly, rfl⟩ := map_eq_ok.mp hafter
    have hfit := hr.fit t (List.mem_of_getElem? ht)
    have heffect := Position.effect_of_apply hfit.quantity happly
    have hpresent := hr.exists_checkpoint_iff ht hall
    refine ⟨p, q, hbefore, hafter, hpresent, fun hflat => ?_, fun hreverses c hc hi => ?_⟩
    · exact heffect.cleared ((isZero_iff _).mpr hflat)
    · have hflat := hpresent.mp ⟨c, hc, hi⟩
      rw [hr.toRat_base hexact (List.take_prefix ..) hall, List.take_add_one, ht,
        netQuantity_append, ← hr.toRat_base hexact (List.take_prefix ..) hbefore] at hflat
      refine Position.base_ne_zero_of_reverses ((isPositive_iff _).mp hfit.quantity) hreverses ?_
      simpa [netQuantity] using hflat

/-- Two batches, with a reversal at the end of the first one, which leaves no checkpoint; the last
trade leaves one. -/
theorem checkpoints_correct_sampleHistory :
    ∃ r, Replay.Batches sampleTerms
        [(sampleHistory.take 4, []), (sampleHistory.drop 4, [⟨4, 5, ⟨5000⟩⟩])] r ∧
      (∀ us, us <+: r.trades.toList → Representable (netQuantity us)) ∧
      ∀ c, c ∈ r.checkpoints ↔ ∃ t, r.trades[c.index]? = some t ∧
        netQuantity (r.trades.toList.take (c.index + 1)) = 0 ∧ c.tradeId = t.id ∧
          c.time = t.time := by
  have hrun : Yields (Replay.start.append sampleTerms (sampleHistory.take 4)) fun first =>
      first.1 = .ok [] ∧
        Yields (first.2.append sampleTerms (sampleHistory.drop 4)) fun second =>
          second.1 = .ok [⟨4, 5, ⟨5000⟩⟩] := by decide +kernel
  obtain ⟨⟨_, q⟩, hq, rfl, ⟨_, r⟩, hr, rfl⟩ := hrun
  have hbatches : Replay.Batches sampleTerms
      [(sampleHistory.take 4, []), (sampleHistory.drop 4, [⟨4, 5, ⟨5000⟩⟩])] r :=
    (Replay.Batches.none.snoc _ _ hq).snoc _ _ hr
  have hsmall : ∀ us ∈ sampleHistory.inits, OnGrid 0 (netQuantity us) ∧
      |netQuantity us| * 10 ^ 0 + 1 / 2 < coeffBound := by decide +kernel
  have hexact : ∀ us, us <+: r.trades.toList → Representable (netQuantity us) := by
    intro us hus
    rw [hbatches.replayed.1.trades] at hus
    obtain ⟨hgrid, hrange⟩ := hsmall us ((List.mem_inits us sampleHistory).mpr hus)
    exact representable_of_onGrid (Nat.zero_le _) hgrid hrange
  obtain ⟨-, -, -, hmem, -⟩ := checkpoints_correct hbatches hexact
  exact ⟨r, hbatches, hexact, hmem⟩

end CostBasis
