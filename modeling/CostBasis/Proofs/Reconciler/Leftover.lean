import CostBasis.Proofs.Reconciler.Coverage

/-!
# Trades that are left over

A pending trade whose order has become known stays pending until somebody looks.  If a trade with
its key is handed over again before that, it is applied at once, and the pending one is left over:
its key is pending and applied at the same time.  Nothing comes of it, and the next look clears it
away.

This is the only way in which a key is both.  The proof goes along deeds, not small steps, since in
the middle of a look the trades that have just been booked are still pending.

Main statement: `pending_disjoint_unless_redelivered`.
-/

namespace CostBasis

/-- The keys of the trades of a list that can be applied, each once. -/
def admissibleKeys (symbol : String) (ts : List Trade) : List TradeKey :=
  ((ts.filter fun t => t.Admissible symbol).map Trade.key).dedup

/-- These are the keys of the trades of the list that can be applied. -/
theorem mem_admissibleKeys {symbol : String} {ts : List Trade} {key : TradeKey} :
    key ∈ admissibleKeys symbol ts ↔ ∃ t ∈ ts, t.key = key ∧ t.Admissible symbol := by
  unfold admissibleKeys
  rw [List.mem_dedup, List.mem_map]
  constructor
  · rintro ⟨t, ht, rfl⟩
    obtain ⟨hmem, hadmissible⟩ := List.mem_filter.mp ht
    exact ⟨t, hmem, rfl, of_decide_eq_true hadmissible⟩
  · rintro ⟨t, hmem, rfl, hadmissible⟩
    exact ⟨t, List.mem_filter.mpr ⟨hmem, decide_eq_true hadmissible⟩, rfl⟩

/-- Each of them is counted once. -/
theorem nodup_admissibleKeys (symbol : String) (ts : List Trade) :
    (admissibleKeys symbol ts).Nodup :=
  List.nodup_dedup _

namespace Reconciler

/-- The pending trades whose keys count as applied. -/
def leftovers (r : Reconciler) : List Trade := r.pending.toList.filter fun t => r.isApplied t.key

variable {r s : Reconciler} {handed books : List Trade} {deeds : List Deed} {es : List Event}
  {told : Trade → Bool} {isNew : Bool} {task : Task}

/-- A trade is left over if it is pending and its key is in the books. -/
theorem mem_leftovers {t : Trade} :
    t ∈ r.leftovers ↔ t ∈ r.pending.toList ∧ r.isApplied t.key = true :=
  List.mem_filter

/-! ## Where leftovers come from -/

/-- For each trade that is left over, one with its key was handed over later, and applied. -/
def Redelivered (handed books : List Trade) (r : Reconciler) : Prop :=
  ∀ t ∈ r.leftovers, ∃ u ∈ books, u.key = t.key ∧ [t, u].Sublist handed

/-- More trades and more books take nothing back. -/
theorem Redelivered.mono {more fresh : List Trade} {t : Trade}
    (h : ∃ u ∈ books, u.key = t.key ∧ [t, u].Sublist handed) :
    ∃ u ∈ books ++ fresh, u.key = t.key ∧ [t, u].Sublist (handed ++ more) := by
  obtain ⟨u, hu, hkey, hsub⟩ := h
  exact ⟨u, List.mem_append_left fresh hu, hkey, hsub.trans (List.sublist_append_left ..)⟩

/-- **A look at the pending trades leaves none over**, also if orders become known or are forgotten
in the middle of it. -/
theorem leftovers_recheckWhen (haccounts : Accounts books r)
    (h : r.recheckWhen told = ⟨es, .ok (isNew, s)⟩) : s.leftovers = [] := by
  obtain ⟨hsteps, hpending⟩ := steps_of_recheckWhen h
  rw [List.eq_nil_iff_forall_not_mem]
  intro t ht
  obtain ⟨hmem, happlied⟩ := mem_leftovers.mp ht
  rw [hpending] at hmem
  obtain ⟨hmem, hfresh, hunknown⟩ := mem_waitingWhen.mp hmem
  rw [(haccounts.steps hsteps).applied, appliedIn_of_recheckWhen h, List.map_append,
    List.mem_append, ← haccounts.applied] at happlied
  obtain ⟨u, hu, hkey⟩ := List.mem_map.mp (happlied.resolve_left hfresh)
  obtain ⟨humem, -, hknown⟩ := mem_readyWhen.mp hu
  -- Only one pending trade has the key, and the look is told one thing about it.
  obtain rfl := List.inj_on_of_nodup_map r.pending.nodup_keys humem hmem hkey
  exact hunknown hknown

/-- **A deed leaves a trade over only if its key is handed over again.**  A look leaves none over.
A trade that is handed over and applied may leave over a pending one with its key, which was handed
over before it. -/
theorem Redelivered.performWhen (h : Redelivered handed books r) (haccounts : Accounts books r)
    (hcovers : Covers handed books r)
    (hperform : r.performWhen told task = ⟨es, .ok (isNew, s)⟩) :
    Redelivered (handed ++ task.handed) (books ++ appliedIn es) s := by
  cases task with
  | look =>
      intro t ht
      rw [leftovers_recheckWhen haccounts hperform] at ht
      exact absurd ht List.not_mem_nil
  | take origin t =>
      intro v hv
      obtain ⟨hmem, happlied⟩ := mem_leftovers.mp hv
      rw [Reconciler.performWhen] at hperform
      cases deliver_eq_ok hperform with
      | ignored hout => exact Redelivered.mono (h v hv)
      | kept fresh sound unknown =>
          have hsymbol : t.symbol = r.pending.symbol := by
            rw [haccounts.symbol, (isSound_iff.mp sound).1]
          rcases (Pending.mem_toList_add hsymbol).mp hmem with rfl | ⟨hmem, -⟩
          · exact absurd happlied fresh
          · exact Redelivered.mono (h v (mem_leftovers.mpr ⟨hmem, happlied⟩))
      | booked gain? position fresh sound known apply =>
          rcases (isApplied_book ..).mp happlied with hkey | happlied
          · -- The trade that is handed over now comes behind the one that is pending.
            refine ⟨t, ?_, hkey, ?_⟩
            · rw [appliedIn_append, appliedIn_announcements, List.mem_append]
              exact .inr (List.mem_append_left _ (List.mem_singleton_self t))
            · exact (List.singleton_sublist.mpr (hcovers.handed v (.inr hmem))).append
                (List.Sublist.refl [t])
          · exact Redelivered.mono (h v (mem_leftovers.mpr ⟨hmem, happlied⟩))

/-- The accounts, what is covered and where leftovers come from, after deeds from the start.  The
induction adds one deed at the end; the accounts and the coverage before it follow from its small
steps. -/
theorem Deeds.redelivered {symbol : String} {terms : Terms}
    (h : (start symbol terms).Deeds deeds r) :
    r.Redelivered (handedIn deeds) (appliedIn (announcedIn deeds)) := by
  induction h with
  | none =>
      intro t ht
      simp [leftovers, start] at ht
  | snoc told task isNew es hdeeds hperform ih =>
      rw [handedIn_append, announcedIn_append, handedIn_singleton, announcedIn_singleton,
        appliedIn_append]
      exact ih.performWhen ((accounts_start symbol terms).steps hdeeds.steps)
        ((covers_start symbol terms).steps (accounts_start symbol terms) hdeeds.steps) hperform

/-- Nothing is left over if no key is handed over twice, for what is left over comes from two trades
with one key. -/
theorem Redelivered.leftovers_eq_nil {symbol : String} (h : Redelivered handed books r)
    (haccounts : Accounts books r) (hsymbol : r.symbol = symbol)
    (hnodup : ((handed.filter fun t => t.Admissible symbol).map Trade.key).Nodup) :
    r.leftovers = [] := by
  subst hsymbol
  rw [List.eq_nil_iff_forall_not_mem]
  intro t ht
  obtain ⟨u, hu, hkey, hsub⟩ := h t ht
  have hadmissible : ∀ v, v ∈ books ∨ v ∈ r.pending.toList → v.Admissible r.symbol := fun v hv =>
    isSound_iff.mp (haccounts.sound v hv)
  have htwice : [t, u].filter (fun v => v.Admissible r.symbol) = [t, u] := by
    rw [List.filter_eq_self]
    intro v hv
    rcases List.mem_pair.mp hv with rfl | rfl
    · exact decide_eq_true (hadmissible v (.inr (mem_leftovers.mp ht).1))
    · exact decide_eq_true (hadmissible v (.inl hu))
  have hpair := hnodup.sublist ((hsub.filter fun v => v.Admissible r.symbol).map Trade.key)
  rw [htwice, List.map_cons, List.map_singleton, hkey] at hpair
  exact absurd hpair (by simp)

/-! ## How many keys there are -/

/-- **The keys that were handed over are applied or pending**, and those that are both are left
over. -/
theorem Covers.size_add_size (hcovers : Covers handed books r) (haccounts : Accounts books r) :
    r.pending.size + r.applied.size =
      (admissibleKeys r.symbol handed).length + r.leftovers.length := by
  let fresh := r.pending.toList.filter fun t => !r.isApplied t.key
  have hperm : (admissibleKeys r.symbol handed).Perm
      (books.map Trade.key ++ fresh.map Trade.key) := by
    refine (List.perm_ext_iff_of_nodup (nodup_admissibleKeys ..) ?_).mpr fun key => ?_
    · refine haccounts.nodup.append (r.pending.nodup_keys.sublist (List.filter_sublist.map _)) ?_
      intro key hbooks hfresh
      obtain ⟨t, ht, rfl⟩ := List.mem_map.mp hfresh
      have hnot := (List.mem_filter.mp ht).2
      rw [(haccounts.applied _).mpr hbooks] at hnot
      exact absurd hnot (by simp)
    · rw [mem_admissibleKeys, hcovers.exists_handed_iff haccounts, haccounts.applied,
        List.mem_append, List.mem_map (l := fresh)]
      refine or_congr_right' fun hnot => exists_congr fun t => ?_
      rw [List.mem_filter, and_assoc]
      refine and_congr_right fun _ => ⟨fun hkey => ⟨?_, hkey⟩, And.right⟩
      rw [hkey, Bool.not_eq_true', ← Bool.not_eq_true, haccounts.applied]
      exact hnot
  have hsplit : r.pending.toList.length = r.leftovers.length + fresh.length :=
    List.length_eq_length_filter_add _
  have hlength := hperm.length_eq
  rw [List.length_append, List.length_map, List.length_map, ← haccounts.size] at hlength
  rw [← Pending.length_toList]
  omega

end Reconciler

/-! ## All runs -/

/-- **A key is pending and applied at once only if it was handed over again.**  After any run from a
fresh desk: if the key of a pending trade counts as applied, then the trade that was applied was
handed over after the pending one.  Such trades apart, the pending keys and the applied ones
together are as many as the keys that were handed over and can be applied; and there are none if
each of those keys was handed over once.  A key stops being pending only when it counts as applied.
After a look at the pending trades no key is both.
Source: specification, sections 3 and 4.4, which leave the second delivery out. -/
theorem pending_disjoint_unless_redelivered {symbol : String} {terms : Terms}
    {settings : ServiceSettings} {known : KnownOrders} {happenings : List Happening} {c : Chronicle}
    (h : (Chronicle.opening (.fresh symbol terms settings known)).run happenings = .ok c) :
    (∀ t ∈ c.reconciler.pending.toList, c.reconciler.isApplied t.key = true →
      ∃ u ∈ appliedIn c.log, u.key = t.key ∧ [t, u].Sublist c.handed) ∧
    c.reconciler.pending.size + c.reconciler.applied.size =
      (admissibleKeys symbol c.handed).length + c.reconciler.leftovers.length ∧
    (((c.handed.filter fun t => t.Admissible symbol).map Trade.key).Nodup →
      c.reconciler.leftovers = []) ∧
    (∀ happening c', c.next happening = .ok c' → ∀ t ∈ c.reconciler.pending.toList,
      (∃ u ∈ c'.reconciler.pending.toList, u.key = t.key) ∨
        c'.reconciler.isApplied t.key = true) ∧
    ∀ isKnown es isNew r, c.reconciler.recheck isKnown = ⟨es, .ok (isNew, r)⟩ →
      r.leftovers = [] ∧
        r.pending.size + r.applied.size = (admissibleKeys symbol c.handed).length := by
  obtain ⟨haccounts, hsymbol, -⟩ := accounts_of_run_fresh h
  obtain ⟨deeds, hdeeds, hhanded, hlog⟩ := Chronicle.deeds_of_run_fresh h
  have hcovers : c.reconciler.Covers c.handed (appliedIn c.log) :=
    (Reconciler.covers_start _ _).steps (Reconciler.accounts_start _ _)
      (Chronicle.steps_of_run_fresh h)
  have hredelivered : c.reconciler.Redelivered c.handed (appliedIn c.log) := by
    rw [hhanded, hlog]
    exact hdeeds.redelivered
  refine ⟨fun t ht happlied => hredelivered t (Reconciler.mem_leftovers.mpr ⟨ht, happlied⟩),
    hsymbol ▸ hcovers.size_add_size haccounts,
    hredelivered.leftovers_eq_nil haccounts hsymbol, ?_, ?_⟩
  · intro happening c' hnext t ht
    obtain ⟨es, hfulfils, -, -⟩ := Chronicle.fulfils_of_next hnext
    have hkept := (hcovers.steps haccounts hfulfils.steps).kept t
      (List.mem_append_left _ (hcovers.handed t (.inr ht)))
    rw [hfulfils.steps.unchanged.1] at hkept
    exact (hkept (Reconciler.isSound_iff.mp (haccounts.sound t (.inr ht)))).symm
  · intro isKnown es isNew r hrecheck
    obtain ⟨hsteps, -⟩ := Reconciler.steps_of_recheck hrecheck
    have hnone := Reconciler.leftovers_recheckWhen haccounts hrecheck
    have hsize := (hcovers.steps haccounts hsteps).size_add_size (haccounts.steps hsteps)
    rw [hsteps.unchanged.1, hsymbol, hnone, List.append_nil] at hsize
    exact ⟨hnone, hsize⟩

/-- The first trade is pending when its order becomes known and it is handed over again. -/
def sampleRedelivery : List Happening := [
  .delivered (sampleTrade 1 .buy 100 1 1),
  .added (sampleOrder 1),
  .delivered (sampleTrade 1 .buy 100 1 1)]

/-- One trade is left over, whose key counts twice, until a look clears it away. -/
theorem pending_disjoint_unless_redelivered_sampleRedelivery :
    Yields (sampleOpening.run sampleRedelivery) fun c =>
      c.reconciler.leftovers.length = 1 ∧ (admissibleKeys "BTCUSDT" c.handed).length = 1 ∧
        c.reconciler.pending.size + c.reconciler.applied.size = 2 ∧
          Yields (c.reconciler.recheck fun _ => true).result fun a =>
            a.2.leftovers = [] ∧ a.2.pending.size + a.2.applied.size = 1 := by
  have hrun : Yields (sampleOpening.run sampleRedelivery) fun c =>
      c.reconciler.leftovers.length = 1 ∧ (admissibleKeys "BTCUSDT" c.handed).length = 1 ∧
        Yields (c.reconciler.recheck fun _ => true).result fun _ => True := by decide +kernel
  obtain ⟨c, hrun, hleft, hkeys, ⟨isNew, r⟩, hresult, -⟩ := hrun
  obtain ⟨-, hsize, -, -, hlook⟩ := pending_disjoint_unless_redelivered hrun
  have hrecheck : c.reconciler.recheck (fun _ => true) =
      ⟨(c.reconciler.recheck fun _ => true).events, .ok (isNew, r)⟩ := by rw [← hresult]
  obtain ⟨hnone, hsize'⟩ := hlook _ _ isNew r hrecheck
  refine ⟨c, hrun, hleft, hkeys, ?_, (isNew, r), hresult, hnone, hsize'.trans hkeys⟩
  rw [hsize, hkeys, hleft]

/-- A key can be pending and applied at once, and then counts twice. -/
theorem pending_and_applied_sampleRedelivery :
    Yields (sampleOpening.run sampleRedelivery) fun c =>
      (∃ t ∈ c.reconciler.pending.toList, c.reconciler.isApplied t.key = true) ∧
        c.reconciler.pending.size + c.reconciler.applied.size ≠
          (admissibleKeys "BTCUSDT" c.handed).length := by
  decide +kernel

end CostBasis
