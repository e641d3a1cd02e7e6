import CostBasis.Proofs.Reconciler.EventLog

/-!
# Orders that become known late

Trades whose orders are not known are kept, and once the orders are known one look at the pending
trades applies all of them.  It applies them by ascending number, not in the order in which they
came.  So the outcome is that of taking the trades by ascending number with their orders known.  If
their numbers ascend as they come, it makes no difference when the orders become known.  If not, it
may make one, since what a sale earns depends on what was bought before it.

Main statement: `late_registration_by_number`.
-/

namespace CostBasis

/-! ## Calculations that end alike -/

/-- Two calculations have the same result and report the same gains. -/
structure Journal.Alike {α : Type} (x y : Journal α) : Prop where
  /-- The results, or the faults, are the same. -/
  result : x.result = y.result
  /-- The trades that have earned something, and what they have earned. -/
  gains : x.events.filterMap Event.gain? = y.events.filterMap Event.gain?

namespace Journal.Alike

variable {α β : Type} {x y z : Journal α}

/-- A calculation ends like itself. -/
theorem refl (x : Journal α) : x.Alike x := ⟨rfl, rfl⟩

/-- To end alike is the same from either side. -/
theorem symm (h : x.Alike y) : y.Alike x := ⟨h.result.symm, h.gains.symm⟩

/-- To end alike can be passed on. -/
theorem trans (h : x.Alike y) (h' : y.Alike z) : x.Alike z :=
  ⟨h.result.trans h'.result, h.gains.trans h'.gains⟩

/-- Calculations that end alike may be followed by others that do. -/
theorem bind {f g : α → Journal β} (h : x.Alike y)
    (hfg : ∀ a, x.result = .ok a → (f a).Alike (g a)) : (x >>= f).Alike (y >>= g) := by
  cases hx : x.result with
  | error fault =>
      rw [Journal.bind_of_error hx, Journal.bind_of_error (h.result ▸ hx)]
      exact ⟨rfl, h.gains⟩
  | ok a =>
      rw [Journal.bind_of_ok hx, Journal.bind_of_ok (h.result ▸ hx)]
      refine ⟨(hfg a hx).result, ?_⟩
      rw [List.filterMap_append, List.filterMap_append, h.gains, (hfg a hx).gains]

end Journal.Alike

namespace Reconciler

variable {r : Reconciler} {isKnown : UInt64 → Bool} {origin : Origin} {t : Trade}

/-- To announce the position is no gain, and changes no result. -/
theorem announcePosition_alike (r : Reconciler) {α : Type} (x : Journal α) :
    (r.announcePosition >>= fun _ => x).Alike x := ⟨rfl, rfl⟩

/-! ## Both ways in terms of applying trades -/

/-- **Taking trades whose orders are known** is applying them, but for the announcements of the
position. -/
theorem deliverAll_alike (ts : List Trade) : ∀ {r : Reconciler},
    (∀ t ∈ ts, r.isSound t = true ∧ ¬r.isApplied t.key = true ∧ isKnown t.orderId = true) →
      (ts.map Trade.key).Nodup →
        (Prod.snd <$> r.deliverAll isKnown origin ts).Alike (r.applyAll origin ts) := by
  induction ts with
  | nil =>
      intro r _ _
      exact .refl _
  | cons t ts ih =>
      intro r h hnodup
      obtain ⟨⟨hsound, hfresh, hknown⟩, hts⟩ := List.forall_mem_cons.mp h
      rw [List.map_cons, List.nodup_cons] at hnodup
      obtain ⟨hnew, hnodup⟩ := hnodup
      rw [deliverAll_cons, deliver_of_known hfresh hsound hknown, applyAll, List.foldlM_cons]
      simp only [map_eq_pure_bind, bind_assoc, pure_bind]
      refine Journal.Alike.bind (.refl _) fun s hs => ?_
      have happly : r.apply origin t = ⟨(r.apply origin t).events, .ok s⟩ := by rw [← hs]
      obtain ⟨gain?, position, -, -, rfl⟩ := apply_eq_ok happly
      refine (announcePosition_alike _ _).trans ?_
      rw [← map_eq_pure_bind]
      refine ih (fun u hu => ?_) hnodup
      obtain ⟨husound, hufresh, huknown⟩ := hts u hu
      exact ⟨husound, not_isApplied_book hnew hu hufresh, huknown⟩

/-- Keeping trades whose orders are not known.  Nothing is announced, and nothing but the pending
trades changes. -/
theorem deliverAll_of_unknown (ts : List Trade) : ∀ {r : Reconciler},
    (∀ t ∈ ts, r.isSound t = true ∧ ¬r.isApplied t.key = true ∧ ¬isKnown t.orderId = true) →
      r.deliverAll isKnown origin ts =
        ⟨[], .ok (0, { r with pending := ts.foldl Pending.add r.pending })⟩ := by
  induction ts with
  | nil =>
      intro r _
      rfl
  | cons t ts ih =>
      intro r h
      obtain ⟨⟨hsound, hfresh, hunknown⟩, hts⟩ := List.forall_mem_cons.mp h
      rw [deliverAll_cons, deliver_of_unknown hfresh hsound hunknown, Journal.bind_of_ok rfl,
        ih (r := { r with pending := r.pending.add t }) hts]
      rfl

/-- **A look at the pending trades** is applying those that are ready, but for the announcement of
the position. -/
theorem recheck_alike (r : Reconciler) (isKnown : UInt64 → Bool) :
    (Prod.snd <$> r.recheck isKnown).Alike
      ({ r with pending := r.waiting isKnown }.applyAll .live (r.ready isKnown)) := by
  unfold recheck
  by_cases hready : (r.ready isKnown).isEmpty = true
  · rw [if_pos hready, List.isEmpty_iff.mp hready]
    exact .refl _
  · rw [if_neg hready]
    simp only [map_eq_pure_bind, bind_assoc, pure_bind]
    refine (Journal.Alike.bind (.refl _) fun s _ => announcePosition_alike s (pure s)).trans ?_
    rw [bind_pure]
    exact .refl _

end Reconciler

/-! ## Early and late -/

/-- **Trades whose orders become known late count by ascending number.**  If no trade is pending,
then new trades whose orders are not known, followed by one look at the pending trades when all the
orders are known, lead to the same state and the same gains as the same trades taken by ascending
number with their orders known.  So if their numbers ascend as they come, it makes no difference
when the orders become known.
Source: order-independence; specification, section 8.  There it is stated for all trades, whatever
their numbers. -/
theorem late_registration_by_number {r : Reconciler} {ts us : List Trade}
    {before after : UInt64 → Bool} (hpending : r.pending = .empty r.symbol)
    (hts : ∀ t ∈ ts, t.Admissible r.symbol ∧ ¬r.isApplied t.key = true ∧
      ¬before t.orderId = true ∧ after t.orderId = true)
    (hperm : us.Perm ts) (hsorted : us.Pairwise fun t u => t.id < u.id) :
    (Prod.snd <$> (r.deliverAll before .live ts >>= fun a => a.2.recheck after)).Alike
      (Prod.snd <$> r.deliverAll after .live us) := by
  let q : Reconciler := { r with pending := ts.foldl Pending.add r.pending }
  have hkept : r.deliverAll before .live ts = ⟨[], .ok (0, q)⟩ :=
    Reconciler.deliverAll_of_unknown ts fun t ht =>
      ⟨Reconciler.isSound_iff.mpr (hts t ht).1, (hts t ht).2.1, (hts t ht).2.2.1⟩
  have hlist : q.pending.toList = us := by
    show (ts.foldl Pending.add r.pending).toList = us
    rw [hpending]
    exact Pending.toList_foldl_add (fun t ht => (hts t ht).1.1) hperm hsorted
  have hus : ∀ t ∈ us, r.isSound t = true ∧ ¬r.isApplied t.key = true ∧ after t.orderId = true :=
    fun t ht => by
      obtain ⟨hadmissible, hfresh, -, hknown⟩ := hts t (hperm.mem_iff.mp ht)
      exact ⟨Reconciler.isSound_iff.mpr hadmissible, hfresh, hknown⟩
  -- All of them are ready, so none stays pending.
  have hready : q.ready after = us :=
    (Reconciler.ready_of_forall (by rw [hlist]; exact fun t ht => (hus t ht).2)).trans hlist
  have hwaiting : q.waiting after = r.pending := by
    rw [Reconciler.waiting_of_forall (by rw [hlist]; exact fun t ht => (hus t ht).2.2)]
    show Pending.empty (ts.foldl Pending.add r.pending).symbol = r.pending
    rw [Pending.symbol_foldl_add, hpending]
    rfl
  have hkeys : (us.map Trade.key).Nodup := hlist ▸ q.pending.nodup_keys
  have hlook := Reconciler.recheck_alike q after
  rw [hready, hwaiting] at hlook
  rw [map_bind, hkept, ← Journal.pure_eq, pure_bind]
  exact hlook.trans (Reconciler.deliverAll_alike us hus hkeys).symm

/-- A purchase, a sale, and another purchase with a lower number. -/
def sampleArrivals : List Trade :=
  [sampleTrade 2 .buy 100 1 0, sampleTrade 3 .sell 120 1 0,
    { sampleTrade 1 .buy 110 1 0 with time := ⟨4000⟩ }]

/-- The purchase that comes last has the lowest number, so it counts first. -/
theorem late_registration_by_number_sampleArrivals :
    (Prod.snd <$> ((Reconciler.start "BTCUSDT" sampleTerms).deliverAll (fun _ => false) .live
        sampleArrivals >>= fun a => a.2.recheck fun _ => true)).Alike
      (Prod.snd <$> (Reconciler.start "BTCUSDT" sampleTerms).deliverAll (fun _ => true) .live
        (sampleArrivals.drop 2 ++ sampleArrivals.take 2)) :=
  late_registration_by_number rfl (by decide +kernel) (by decide +kernel) (by decide +kernel)

/-- If the numbers do not ascend as the trades come, the gain may be another one, and so may be the
time of the last trade. -/
theorem registration_timing_matters_sampleArrivals :
    (∀ t ∈ sampleArrivals, t.Admissible "BTCUSDT") ∧ (sampleArrivals.map Trade.key).Nodup ∧
      sampleArrivals.Pairwise (fun t u => Trade.notAfter t u = true) ∧
      Yields ((Reconciler.start "BTCUSDT" sampleTerms).deliverAll (fun _ => false) .live
          sampleArrivals >>= fun a => a.2.recheck fun _ => true).result fun late =>
        Yields ((Reconciler.start "BTCUSDT" sampleTerms).deliverAll (fun _ => true) .live
            sampleArrivals).result fun early =>
          late.2.position.grossProfit.toRat = 15 ∧ early.2.position.grossProfit.toRat = 20 ∧
            late.2.position.updatedAt ≠ early.2.position.updatedAt := by
  decide +kernel

end CostBasis
