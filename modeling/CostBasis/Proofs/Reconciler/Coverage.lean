import CostBasis.Proofs.Reconciler.Books

/-!
# No trade is lost or invented

Of the trades that were handed to a reconciler, those that can be applied at all are in its books or
pending, at least under their keys: of several trades with one key only one is applied.  And nothing
is in the books or pending that was not handed over.  So once all the orders are known, one look at
the pending trades leaves all of them applied and none pending.

The invariant is `Covers`.  A key leaves the pending trades only when it is in the books, and a
pending trade gives way only to one with its key.

Main statement: `nothing_lost_or_invented`.
-/

namespace CostBasis

namespace Reconciler

/-! ## The invariant -/

/-- The reconciler has kept what it was handed, and nothing else. -/
structure Covers (handed books : List Trade) (r : Reconciler) : Prop where
  /-- What can be applied is in the books or pending. -/
  kept : ∀ t ∈ handed, t.Admissible r.symbol →
    r.isApplied t.key = true ∨ ∃ u ∈ r.pending.toList, u.key = t.key
  /-- What is in the books or pending was handed over. -/
  handed : ∀ t, t ∈ books ∨ t ∈ r.pending.toList → t ∈ handed

variable {r s : Reconciler} {handed more books : List Trade} {log : List Event} {t : Trade}

/-- A new reconciler was handed nothing and has kept nothing. -/
theorem covers_start (symbol : String) (terms : Terms) : Covers [] [] (start symbol terms) where
  kept t ht := absurd ht List.not_mem_nil
  handed t ht := by simp [start] at ht

/-- Booking a trade, be it one that is handed over now or one that was before.  In the second case
it is among the pending trades still. -/
theorem Covers.book (h : Covers handed books r) (position : Position)
    (hmore : more = [t] ∨ more = [] ∧ t ∈ r.pending.toList) :
    Covers (handed ++ more) (books ++ [t]) (r.book t position) := by
  have ht : t ∈ handed ++ more := by
    rcases hmore with rfl | ⟨rfl, hmem⟩
    · exact List.mem_append_right handed (List.mem_singleton_self t)
    · exact List.mem_append_left [] (h.handed t (.inr hmem))
  constructor
  · intro u hu hadmissible
    rw [isApplied_book]
    rw [List.mem_append] at hu
    rcases hu with hu | hu
    · rcases h.kept u hu hadmissible with happlied | hpending
      · exact .inl (.inr happlied)
      · exact .inr hpending
    · rcases hmore with rfl | ⟨rfl, -⟩
      · rw [List.mem_singleton] at hu
        exact .inl (.inl (by rw [hu]))
      · exact absurd hu List.not_mem_nil
  · intro u hu
    rw [List.mem_append, List.mem_singleton] at hu
    rcases hu with (hu | rfl) | hu
    · exact List.mem_append_left more (h.handed u (.inl hu))
    · exact ht
    · exact List.mem_append_left more (h.handed u (.inr hu))

/-- **A small step loses and invents nothing.**  The cases are the six steps; what a step forgets is
in the books already. -/
theorem Covers.step {es : List Event} (h : Covers handed books r) (haccounts : Accounts books r)
    (hstep : Step r more es s) : Covers (handed ++ more) (books ++ appliedIn es) s := by
  cases hstep with
  | ignored t hout =>
      rw [appliedIn_nil, List.append_nil]
      constructor
      · intro u hu hadmissible
        rw [List.mem_append, List.mem_singleton] at hu
        rcases hu with hu | rfl
        · exact h.kept u hu hadmissible
        · exact .inl (hout.resolve_right fun hunsound => hunsound (isSound_iff.mpr hadmissible))
      · intro u hu
        exact List.mem_append_left [t] (h.handed u hu)
  | kept t fresh sound =>
      have hsymbol : t.symbol = r.pending.symbol := by
        rw [haccounts.symbol, (isSound_iff.mp sound).1]
      rw [appliedIn_nil, List.append_nil]
      constructor
      · intro u hu hadmissible
        show r.isApplied u.key = true ∨ _
        rw [Pending.exists_key_add hsymbol]
        rw [List.mem_append, List.mem_singleton] at hu
        rcases hu with hu | rfl
        · rcases h.kept u hu hadmissible with happlied | hpending
          · exact .inl happlied
          · exact .inr (.inr hpending)
        · exact .inr (.inl rfl)
      · intro u hu
        rw [List.mem_append, List.mem_singleton]
        rcases hu with hu | hu
        · exact .inl (h.handed u (.inl hu))
        · rcases (Pending.mem_toList_add hsymbol).mp hu with rfl | ⟨hmem, -⟩
          · exact .inr rfl
          · exact .inl (h.handed u (.inr hmem))
  | booked origin t gain? position fresh sound apply =>
      rw [appliedIn_announcements]
      exact h.book position (.inl rfl)
  | released t gain? position fresh pending apply =>
      rw [appliedIn_announcements]
      exact h.book position (.inr ⟨rfl, pending⟩)
  | forgotten leaves hleaves =>
      rw [appliedIn_nil, List.append_nil, List.append_nil]
      constructor
      · intro u hu hadmissible
        rcases h.kept u hu hadmissible with happlied | ⟨v, hv, hkey⟩
        · exact .inl happlied
        · -- What stands for the key stays pending, or its key is in the books.
          by_cases hleave : leaves v = true
          · exact .inl (hkey ▸ hleaves v hv hleave)
          · refine .inr ⟨v, (Pending.mem_toList_discard leaves).mpr ⟨hv, ?_⟩, hkey⟩
            exact Bool.not_eq_true _ ▸ hleave
      · intro u hu
        rcases hu with hu | hu
        · exact h.handed u (.inl hu)
        · exact h.handed u (.inr ((Pending.mem_toList_discard leaves).mp hu).1)
  | announced =>
      rw [appliedIn_position, List.append_nil, List.append_nil]
      exact h

/-- Small steps lose and invent nothing.  The accounts are carried along, since what is forgotten
has to be in the books. -/
theorem Covers.steps (h : Covers handed books r) (haccounts : Accounts books r)
    (hsteps : Steps r more log s) : Covers (handed ++ more) (books ++ appliedIn log) s := by
  induction hsteps with
  | none =>
      rw [appliedIn_nil, List.append_nil, List.append_nil]
      exact h
  | snoc hsteps hstep ih =>
      rw [appliedIn_append, ← List.append_assoc, ← List.append_assoc]
      exact ih.step (haccounts.steps hsteps) hstep

/-- The keys of what was handed over and can be applied are those of the books and of the pending
trades. -/
theorem Covers.exists_handed_iff (h : Covers handed books r) (haccounts : Accounts books r)
    (key : TradeKey) :
    (∃ t ∈ handed, t.key = key ∧ t.Admissible r.symbol) ↔
      r.isApplied key = true ∨ ∃ t ∈ r.pending.toList, t.key = key := by
  constructor
  · rintro ⟨t, ht, rfl, hadmissible⟩
    exact h.kept t ht hadmissible
  · have hexists : ∀ t, t ∈ books ∨ t ∈ r.pending.toList →
        ∃ u ∈ handed, u.key = t.key ∧ u.Admissible r.symbol := fun t ht =>
      ⟨t, h.handed t ht, rfl, isSound_iff.mp (haccounts.sound t ht)⟩
    rintro (happlied | ⟨t, ht, rfl⟩)
    · obtain ⟨t, ht, rfl⟩ := List.mem_map.mp ((haccounts.applied key).mp happlied)
      exact hexists t (.inl ht)
    · exact hexists t (.inr ht)

/-- Nothing stays pending after a look if all the orders are known. -/
theorem toList_pending_recheck {isKnown : UInt64 → Bool} {isNew : Bool}
    (hknown : ∀ t ∈ r.pending.toList, isKnown t.orderId = true)
    (h : r.recheck isKnown = ⟨log, .ok (isNew, s)⟩) : s.pending.toList = [] := by
  rw [(steps_of_recheck h).2, waiting_of_forall hknown, Pending.toList_empty]

end Reconciler

/-! ## All runs -/

/-- **No trade is lost or invented.**  After any run from a fresh desk the keys of the trades that
were handed over and can be applied are the keys that count as applied and those of the pending
trades, and both the pending trades and the applied ones, which make up the position, are among
the trades that were handed over.  If the orders of all pending trades are known, then after one
look at them nothing is pending, and what was handed over and can be applied counts as applied.
Source: the states of a trade key; specification, section 4.4. -/
theorem nothing_lost_or_invented {symbol : String} {terms : Terms} {settings : ServiceSettings}
    {known : KnownOrders} {happenings : List Happening} {c : Chronicle}
    (h : (Chronicle.opening (.fresh symbol terms settings known)).run happenings = .ok c) :
    (∀ key, (∃ t ∈ c.handed, t.key = key ∧ t.Admissible symbol) ↔
      c.reconciler.isApplied key = true ∨ ∃ t ∈ c.reconciler.pending.toList, t.key = key) ∧
    (∀ t ∈ c.reconciler.pending.toList, t ∈ c.handed) ∧
    (∀ t ∈ appliedIn c.log, t ∈ c.handed) ∧
    Position.flat.afterAll terms (appliedIn c.log) = .ok c.reconciler.position ∧
    ∀ isKnown, (∀ t ∈ c.reconciler.pending.toList, isKnown t.orderId = true) →
      ∀ es isNew r, c.reconciler.recheck isKnown = ⟨es, .ok (isNew, r)⟩ →
        r.pending.toList = [] ∧
          ∀ key, r.isApplied key = true ↔ ∃ t ∈ c.handed, t.key = key ∧ t.Admissible symbol := by
  obtain ⟨haccounts, rfl, rfl⟩ := accounts_of_run_fresh h
  have hcovers : c.reconciler.Covers c.handed (appliedIn c.log) :=
    (Reconciler.covers_start _ _).steps (Reconciler.accounts_start _ _)
      (Chronicle.steps_of_run_fresh h)
  refine ⟨hcovers.exists_handed_iff haccounts, fun t ht => hcovers.handed t (.inr ht),
    fun t ht => hcovers.handed t (.inl ht), haccounts.position, ?_⟩
  intro isKnown hknown es isNew r hrecheck
  have hempty := Reconciler.toList_pending_recheck hknown hrecheck
  refine ⟨hempty, fun key => ?_⟩
  obtain ⟨hsteps, -⟩ := Reconciler.steps_of_recheck hrecheck
  have hiff := (hcovers.steps haccounts hsteps).exists_handed_iff (haccounts.steps hsteps) key
  rw [List.append_nil, hsteps.unchanged.1, hempty] at hiff
  rw [hiff]
  simp

/-- On the sample day the third trade stays pending, and a look that knows its order applies it, so
that nothing is pending any more. -/
theorem nothing_lost_or_invented_sampleDay :
    Yields (sampleOpening.run sampleDay) fun c =>
      c.reconciler.pending.toList.map Trade.id = [3] ∧
        Yields (c.reconciler.recheck fun _ => true).result fun a =>
          a.2.pending.toList = [] ∧ a.2.isApplied ⟨"BTCUSDT", 3⟩ = true := by
  have hday : Yields (sampleOpening.run sampleDay) fun c =>
      c.reconciler.pending.toList.map Trade.id = [3] ∧
        (∃ t ∈ c.handed, t.key = ⟨"BTCUSDT", 3⟩ ∧ t.Admissible "BTCUSDT") ∧
          Yields (c.reconciler.recheck fun _ => true).result fun _ => True := by decide +kernel
  obtain ⟨c, hrun, hids, hhanded, ⟨isNew, r⟩, hresult, -⟩ := hday
  obtain ⟨-, -, -, -, hall⟩ := nothing_lost_or_invented hrun
  have hrecheck : c.reconciler.recheck (fun _ => true) =
      ⟨(c.reconciler.recheck fun _ => true).events, .ok (isNew, r)⟩ := by rw [← hresult]
  obtain ⟨hempty, hkeys⟩ := hall _ (fun _ _ => rfl) _ isNew r hrecheck
  exact ⟨c, hrun, hids, (isNew, r), hresult, hempty, (hkeys _).mpr hhanded⟩

end CostBasis
