import CostBasis.Proofs.History.Select

/-!
# Histories of the same trades

An answer depends on which trades a history has, and on nothing else: neither on their order nor on
how often each of them is there.  The order of time looks at stamps, and an answer takes of each key
the earliest one.  So the stamps of an answer are determined by the stamps of the history.  What the
stamps do not say is the rest of the trades, and this is settled if no two trades that differ have
the same stamp.

Which trades are held to be different is left open here, and is given as a relation.

Main statements: `forall₂_sortByTime`, `map_stamp_selectAll`, `SameTrades.forall₂_select`.
-/

namespace CostBasis

/-! ## Sorting -/

namespace Trade

variable {ts us : List Trade} {R : Trade → Trade → Prop}

/-- There is one way to put stamps in order, as the order leaves no ties between different
stamps. -/
theorem map_stamp_eq_of_perm (hperm : (ts.map stamp).Perm (us.map stamp))
    (hts : ts.Pairwise fun t u => notAfter t u = true)
    (hus : us.Pairwise fun t u => notAfter t u = true) : ts.map stamp = us.map stamp :=
  List.Perm.eq_of_pairwise (fun _ _ _ _ => Stamp.eq_of_notAfter) (List.pairwise_map.mpr hts)
    (List.pairwise_map.mpr hus) hperm

/-- Trades with the same stamps are related one by one if the stamps decide it.  The induction is on
both lists at once. -/
theorem forall₂_of_map_stamp (ts : List Trade) : ∀ {us : List Trade},
    ts.map stamp = us.map stamp → (∀ t ∈ ts, ∀ u ∈ us, t.stamp = u.stamp → R t u) →
      List.Forall₂ R ts us := by
  induction ts with
  | nil =>
      intro us h _
      obtain rfl := List.map_eq_nil_iff.mp h.symm
      exact .nil
  | cons t ts ih =>
      intro us h hR
      obtain ⟨u, us, rfl, hu, hus⟩ := List.map_eq_cons_iff.mp h.symm
      refine .cons (hR t (List.mem_cons_self ..) u (List.mem_cons_self ..) hu.symm) ?_
      exact ih hus.symm fun t ht u hu =>
        hR t (List.mem_cons_of_mem _ ht) u (List.mem_cons_of_mem _ hu)

/-- **Sorting by time** brings trades together that have the same stamp. -/
theorem forall₂_sortByTime (hperm : (ts.map stamp).Perm (us.map stamp))
    (hR : ∀ t ∈ ts, ∀ u ∈ us, t.stamp = u.stamp → R t u) :
    List.Forall₂ R (sortByTime ts) (sortByTime us) := by
  refine forall₂_of_map_stamp _ (map_stamp_eq_of_perm ?_ (pairwise_sortByTime ts)
    (pairwise_sortByTime us)) fun t ht u hu => ?_
  · exact ((sortByTime_perm ts).map _).trans (hperm.trans ((sortByTime_perm us).map _).symm)
  · exact hR t ((sortByTime_perm ts).mem_iff.mp ht) u ((sortByTime_perm us).mem_iff.mp hu)

end Trade

namespace TradeQuery

variable {q : TradeQuery} {symbol : String}

/-! ## The stamps of an answer -/

/-- Dropping repeats leaves the other trades in their order, and adds none. -/
theorem firstOfKeys_sublist (ts : List Trade) : ∀ seen, (firstOfKeys seen ts).Sublist ts := by
  induction ts with
  | nil =>
      intro seen
      exact .slnil
  | cons t ts ih =>
      intro seen
      rw [firstOfKeys]
      split
      · exact (ih seen).cons t
      · exact (ih _).cons_cons t

/-- Every new key is there, with the first of its trades.  In a sorted list that trade is the
earliest one of the key. -/
theorem exists_mem_firstOfKeys (ts : List Trade) : ∀ {seen : Std.ExtTreeSet TradeKey},
    ts.Pairwise (fun t u => Trade.notAfter t u = true) → ∀ t ∈ ts, t.key ∉ seen →
      ∃ u ∈ firstOfKeys seen ts, u.key = t.key ∧ u.time ≤ t.time := by
  induction ts with
  | nil =>
      intro seen _ t ht
      exact absurd ht List.not_mem_nil
  | cons v ts ih =>
      intro seen hsorted t ht hnew
      obtain ⟨hfirst, hsorted⟩ := List.pairwise_cons.mp hsorted
      rw [firstOfKeys]
      by_cases hkey : v.key = t.key
      · -- The first trade of the key is this one.
        rw [if_neg (hkey ▸ hnew)]
        refine ⟨v, List.mem_cons_self .., hkey, ?_⟩
        rcases List.mem_cons.mp ht with rfl | ht
        · exact Int64.le_refl _
        · exact Trade.time_le_of_notAfter (hfirst t ht)
      · have ht : t ∈ ts := (List.mem_cons.mp ht).resolve_left fun heq => hkey (heq ▸ rfl)
        split
        · exact ih hsorted t ht hnew
        · have hnew' : t.key ∉ seen.insert v.key := by
            rw [Std.ExtTreeSet.mem_insert, not_or]
            exact ⟨fun heq => hkey (Std.LawfulEqCmp.eq_of_compare heq), hnew⟩
          obtain ⟨u, hu, hukey, hle⟩ := ih hsorted t ht hnew'
          exact ⟨u, List.mem_cons_of_mem _ hu, hukey, hle⟩

/-- Whether a trade is asked for: what the history filters by before it sorts.
Source: the filter in `select_trades`. -/
def Asks (q : TradeQuery) (symbol : String) (t : Trade) : Prop :=
  t.symbol = symbol ∧ q.accepts t = true

/-- What is in an answer is in the history, and was asked for. -/
theorem mem_of_mem_selectAll {ts : List Trade} {t : Trade} (h : t ∈ q.selectAll symbol ts) :
    t ∈ ts ∧ q.Asks symbol t := by
  have h := (Trade.sortByTime_perm _).mem_iff.mp ((firstOfKeys_sublist _ _).subset h)
  simpa [Asks] using h

/-- An answer is in the order of time, since dropping repeats keeps the order of the sort. -/
theorem pairwise_selectAll (ts : List Trade) :
    (q.selectAll symbol ts).Pairwise fun t u => Trade.notAfter t u = true :=
  (Trade.pairwise_sortByTime _).sublist (firstOfKeys_sublist _ _)

/-- Every key that is asked for is answered, with the earliest of its trades. -/
theorem exists_mem_selectAll {ts : List Trade} {t : Trade} (ht : t ∈ ts) (hasks : q.Asks symbol t) :
    ∃ u ∈ q.selectAll symbol ts, u.key = t.key ∧ u.time ≤ t.time := by
  refine exists_mem_firstOfKeys _ (Trade.pairwise_sortByTime _) t ?_ Std.ExtTreeSet.not_mem_empty
  rw [(Trade.sortByTime_perm _).mem_iff, List.mem_filter]
  exact ⟨ht, by simpa [Asks] using hasks⟩

/-- Whether a trade is asked for is decided by its stamp. -/
theorem Asks.of_stamp {t u : Trade} (h : t.stamp = u.stamp) (hasks : q.Asks symbol t) :
    q.Asks symbol u := by
  obtain ⟨htime, hid, hsymbol⟩ := Stamp.mk.inj h
  rwa [Asks, accepts, htime, hid, hsymbol] at hasks

/-- If two histories have the same stamps, then the stamps of the one answer are among those of the
other one.  The trade that the other answer has for a key is not later, and it is not earlier
either, as each answer has the earliest trade of the key. -/
theorem stamps_selectAll_subset {ts us : List Trade}
    (h : ts.map Trade.stamp ⊆ us.map Trade.stamp) (h' : us.map Trade.stamp ⊆ ts.map Trade.stamp) :
    (q.selectAll symbol ts).map Trade.stamp ⊆ (q.selectAll symbol us).map Trade.stamp := by
  intro s hs
  obtain ⟨t, ht, rfl⟩ := List.mem_map.mp hs
  obtain ⟨hts, hasks⟩ := mem_of_mem_selectAll ht
  -- The other answer has a trade with this key that is not later.
  obtain ⟨u, hus, hstamp⟩ := List.mem_map.mp (h (List.mem_map_of_mem hts))
  obtain ⟨v, hv, hkey, hle⟩ := exists_mem_selectAll hus (hasks.of_stamp hstamp.symm)
  obtain ⟨hvus, hvasks⟩ := mem_of_mem_selectAll hv
  -- It is not earlier either, as this answer has the earliest one.
  obtain ⟨t', hts', hstamp'⟩ := List.mem_map.mp (h' (List.mem_map_of_mem hvus))
  obtain ⟨w, hw, hkey', hle'⟩ := exists_mem_selectAll hts' (hvasks.of_stamp hstamp'.symm)
  obtain ⟨htime, hkeys⟩ := Trade.stamp_eq_iff.mp hstamp
  obtain ⟨htime', hkeys'⟩ := Trade.stamp_eq_iff.mp hstamp'
  obtain rfl : w = t := List.inj_on_of_nodup_map (nodup_keys_selectAll ts) hw ht
    (hkey'.trans (hkeys'.trans (hkey.trans hkeys)))
  rw [htime] at hle
  rw [htime'] at hle'
  have hearliest : v.time = w.time := congrArg Instant.mk (Int64.le_antisymm hle hle')
  exact List.mem_map.mpr ⟨v, hv, Trade.stamp_eq_iff.mpr ⟨hearliest, hkey.trans hkeys⟩⟩

/-- **The stamps of an answer are determined by which stamps the history has.**  Their order and how
often they are there play no part. -/
theorem map_stamp_selectAll {ts us : List Trade} (h : ts.map Trade.stamp ⊆ us.map Trade.stamp)
    (h' : us.map Trade.stamp ⊆ ts.map Trade.stamp) :
    (q.selectAll symbol ts).map Trade.stamp = (q.selectAll symbol us).map Trade.stamp := by
  have hnodup (ts : List Trade) : ((q.selectAll symbol ts).map Trade.stamp).Nodup := by
    refine List.Nodup.of_map (fun s => (⟨s.symbol, s.id⟩ : TradeKey)) ?_
    rw [List.map_map]
    exact nodup_keys_selectAll ts
  refine Trade.map_stamp_eq_of_perm ?_ (pairwise_selectAll ts)
    (pairwise_selectAll us)
  rw [List.perm_ext_iff_of_nodup (hnodup ts) (hnodup us)]
  intro s
  exact ⟨fun hs => stamps_selectAll_subset h h' hs, fun hs => stamps_selectAll_subset h' h hs⟩

end TradeQuery

/-! ## The same trades -/

/-- Two lists have the same trades, where `R` says which trades are the same; and those that are not
have different stamps. -/
structure SameTrades (R : Trade → Trade → Prop) (ts us : List Trade) : Prop where
  left : ∀ t ∈ ts, ∃ u ∈ us, R t u
  right : ∀ u ∈ us, ∃ t ∈ ts, R t u
  apart : ∀ t ∈ ts, ∀ t' ∈ ts, t.stamp = t'.stamp → R t t'

namespace SameTrades

variable {R : Trade → Trade → Prop} {ts us : List Trade}

/-- A list in another order, and of other trades that are the same, one by one, has the same
trades. -/
theorem of_perm {vs : List Trade} (hperm : ts.Perm vs) (hvs : List.Forall₂ R vs us)
    (hapart : ∀ t ∈ ts, ∀ t' ∈ ts, t.stamp = t'.stamp → R t t') : SameTrades R ts us := by
  obtain ⟨hlength, hget⟩ := List.forall₂_iff_get.mp hvs
  refine ⟨fun t ht => ?_, fun u hu => ?_, hapart⟩
  · obtain ⟨i, hi, rfl⟩ := List.mem_iff_getElem.mp (hperm.mem_iff.mp ht)
    exact ⟨us[i], List.getElem_mem _, hget i hi (hlength ▸ hi)⟩
  · obtain ⟨i, hi, rfl⟩ := List.mem_iff_getElem.mp hu
    exact ⟨vs[i], hperm.mem_iff.mpr (List.getElem_mem _), hget i (hlength ▸ hi) hi⟩

/-- Trades with the same stamp are the same also across the lists. -/
theorem across [IsTrans Trade R] (h : SameTrades R ts us)
    (hstamp : ∀ t u, R t u → t.stamp = u.stamp) :
    ∀ t ∈ ts, ∀ u ∈ us, t.stamp = u.stamp → R t u := by
  intro t ht u hu heq
  obtain ⟨t', ht', hR⟩ := h.right u hu
  exact IsTrans.trans _ _ _ (h.apart t ht t' ht' (heq.trans (hstamp t' u hR).symm)) hR

/-- **The same trades lead to the same answer**, with a limit and without one.  Their stamps come in
the same order, and the stamps decide which trades are the same. -/
theorem forall₂_select [IsTrans Trade R] (h : SameTrades R ts us)
    (hstamp : ∀ t u, R t u → t.stamp = u.stamp) (q : TradeQuery) (symbol : String) :
    List.Forall₂ R (q.select symbol ts) (q.select symbol us) := by
  have hstamps :
      (q.selectAll symbol ts).map Trade.stamp = (q.selectAll symbol us).map Trade.stamp := by
    refine TradeQuery.map_stamp_selectAll ?_ ?_
    · intro s hs
      obtain ⟨t, ht, rfl⟩ := List.mem_map.mp hs
      obtain ⟨u, hu, hR⟩ := h.left t ht
      exact List.mem_map.mpr ⟨u, hu, (hstamp t u hR).symm⟩
    · intro s hs
      obtain ⟨u, hu, rfl⟩ := List.mem_map.mp hs
      obtain ⟨t, ht, hR⟩ := h.right u hu
      exact List.mem_map.mpr ⟨t, ht, hstamp t u hR⟩
  have hall : List.Forall₂ R (q.selectAll symbol ts) (q.selectAll symbol us) :=
    Trade.forall₂_of_map_stamp _ hstamps fun t ht u hu =>
      h.across hstamp t (TradeQuery.mem_of_mem_selectAll ht).1 u
        (TradeQuery.mem_of_mem_selectAll hu).1
  unfold TradeQuery.select
  cases q.limit with
  | none => exact hall
  | some n => exact List.forall₂_take n hall

end SameTrades

end CostBasis
