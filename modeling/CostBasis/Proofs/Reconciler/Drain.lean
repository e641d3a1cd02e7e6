import CostBasis.Proofs.Reconciler.EventLog

/-!
# Looks drain the pending trades

A look at the pending trades goes over them once, and decides about each by the keys in the books
from before the look; the trades that are found are booked only afterwards.  So what matters is that
nothing is decided twice.  No two pending trades have the same key, and they come by ascending
number; the trades that are booked therefore come so as well, and none of them is the reason why
another one should have been left out.

After the look those trades wait that were pending, whose keys were not in the books and whose
orders are not known.  None of them has been booked meanwhile, so a second look finds nothing to do.

Main statements: `Reconciler.drains_of_recheck`, `Reconciler.Drains.recheck_again`,
`look_drains_matched`.
-/

namespace CostBasis

/-- Discarding what is not there changes nothing, down to how the pending trades are kept. -/
theorem Pending.discard_eq_self {p : Pending} {leaves : Trade → Bool}
    (h : ∀ t ∈ p.toList, leaves t = false) : p.discard leaves = p := by
  refine eq_of_getElem? rfl fun id => ?_
  rw [discard, Std.ExtTreeMap.getElem?_filter']
  cases hget : p.byId[id]? with
  | none => rfl
  | some t =>
      have hmem : t ∈ p.toList := mem_toList.mpr ((p.keyed id t hget).1 ▸ hget)
      simp [h t hmem]

/-- The trades that a narration reports lead from the one position to the other.  The induction is
on the narration. -/
theorem Narrates.afterAll {terms : Terms} {p q : Position} {es : List Event}
    (h : Narrates terms p es q) : p.afterAll terms (appliedIn es) = .ok q := by
  induction h with
  | nothing => rfl
  | applied origin t gain? apply _ ih =>
      rw [appliedIn_append, Reconciler.appliedIn_announcements, List.singleton_append,
        Position.afterAll_cons, Position.after, apply]
      exact ih
  | position _ ih => exact ih

namespace Reconciler

variable {r s : Reconciler} {isKnown : UInt64 → Bool} {es : List Event} {isNew : Bool} {t : Trade}
  {origin : Origin}

/-! ## Booking one trade after another -/

/-- The announcements of a trade are of a trade or of a gain. -/
theorem kind_announcements_live {gain? : Option Gain} :
    ∀ e ∈ announcements .live t gain?, e.kind = .trade ∨ e.kind = .gain := by
  cases gain? <;> simp [announcements, Origin.announcement, Event.kind]

/-- Trades that have been applied one after another: the events tell how the position came about,
the keys are in the books, and nothing else has changed. -/
structure Applied (r : Reconciler) (ts : List Trade) (es : List Event) (s : Reconciler) : Prop where
  narrates : Narrates r.terms r.position es s.position
  kinds : ∀ e ∈ es, e.kind = .trade ∨ e.kind = .gain
  keys : ∀ key, s.isApplied key = true ↔ r.isApplied key = true ∨ key ∈ ts.map Trade.key
  unchanged : s = { r with position := s.position, applied := s.applied }

/-- Trades are applied one after another, and announced as they come.  The induction is on the
trades. -/
theorem applied_of_applyAll (ts : List Trade) : ∀ {r : Reconciler} {es : List Event},
    r.applyAll .live ts = ⟨es, .ok s⟩ → Applied r ts es s := by
  induction ts with
  | nil =>
      intro r es h
      obtain ⟨rfl, rfl⟩ := Journal.pure_eq_ok h
      exact ⟨.nothing _, by simp, by simp, rfl⟩
  | cons t ts ih =>
      intro r es h
      rw [applyAll, List.foldlM_cons] at h
      obtain ⟨first, r', rest, hone, hrest, rfl⟩ := Journal.bind_eq_ok.mp h
      obtain ⟨gain?, position, hposition, rfl, rfl⟩ := apply_eq_ok hone
      obtain ⟨hnarrates, hkinds, hkeys, hunchanged⟩ := ih hrest
      refine ⟨.applied .live t gain? hposition hnarrates, fun e he => ?_, fun key => ?_, ?_⟩
      · rcases List.mem_append.mp he with he | he
        · exact kind_announcements_live e he
        · exact hkinds e he
      · rw [hkeys, isApplied_book, List.map_cons, List.mem_cons, eq_comm (a := key), or_comm
          (a := t.key = key), or_assoc]
      · rw [hunchanged]
        rfl

/-! ## A look -/

/-- What a look does to the pending trades, to the books, to the position and to the log.  The
trades that it applies are those that its events report. -/
structure Drains (r : Reconciler) (isKnown : UInt64 → Bool) (es : List Event) (isNew : Bool)
    (s : Reconciler) : Prop where
  /-- The trades that are applied were pending, their keys were new, and their orders are known. -/
  applies : ∀ t, t ∈ appliedIn es ↔
    t ∈ r.pending.toList ∧ r.isApplied t.key = false ∧ isKnown t.orderId = true
  /-- They are applied by ascending number, so each of them once. -/
  ascending : (appliedIn es).Pairwise fun t u => t.id < u.id
  position : r.position.afterAll r.terms (appliedIn es) = .ok s.position
  /-- Their keys are the ones that are new in the books. -/
  keys : ∀ key, s.isApplied key = true ↔
    r.isApplied key = true ∨ key ∈ (appliedIn es).map Trade.key
  /-- The trades that wait were pending, their keys were new, and their orders are not known. -/
  waits : ∀ t, t ∈ s.pending.toList ↔
    t ∈ r.pending.toList ∧ r.isApplied t.key = false ∧ isKnown t.orderId = false
  /-- The answer is whether a trade was applied. -/
  isNew : isNew = true ↔ appliedIn es ≠ []
  /-- If so, the trades are announced as they come, each with what it earns, and then the position,
  once. -/
  told : appliedIn es ≠ [] → ∃ front, es = front ++ [.position s.snapshot] ∧
    Narrates r.terms r.position front s.position ∧ ∀ e ∈ front, e.kind = .trade ∨ e.kind = .gain
  /-- If not, nothing is announced, and only pending trades may have gone. -/
  idle : appliedIn es = [] → es = [] ∧ s = { r with pending := s.pending }

/-- **A look drains the pending trades whose orders are known**, and no others.  What it applies are
the trades that were ready before it began, in the order in which they are kept. -/
theorem drains_of_recheck (h : r.recheck isKnown = ⟨es, .ok (isNew, s)⟩) :
    r.Drains isKnown es isNew s := by
  have happlied : appliedIn es = r.ready isKnown := appliedIn_of_recheck h
  obtain ⟨hsteps, hpending⟩ := steps_of_recheck h
  have hnarrates := hsteps.narrates
  have happlies : ∀ t, t ∈ appliedIn es ↔
      t ∈ r.pending.toList ∧ r.isApplied t.key = false ∧ isKnown t.orderId = true := by
    intro t
    rw [happlied, mem_ready, Bool.not_eq_true]
  have hascending : (appliedIn es).Pairwise fun t u => t.id < u.id := by
    rw [happlied]
    exact r.pending.pairwise_toList.filter _
  have hwaits : ∀ t, t ∈ s.pending.toList ↔
      t ∈ r.pending.toList ∧ r.isApplied t.key = false ∧ isKnown t.orderId = false := by
    intro t
    rw [hpending, mem_waiting, Bool.not_eq_true, Bool.not_eq_true]
  cases recheck_eq_ok h with
  | idle hnone =>
      refine ⟨happlies, hascending, hnarrates.afterAll, fun key => ?_, hwaits, ?_, ?_,
        fun _ => ⟨rfl, rfl⟩⟩
      · simp [isApplied]
      · simp
      · intro hsome
        exact absurd rfl hsome
  | booked front s ready hall =>
      obtain ⟨hfront, hkinds, hkeys, hunchanged⟩ := applied_of_applyAll _ hall
      have hsome : appliedIn (front ++ [.position s.snapshot]) ≠ [] := happlied ▸ ready
      refine ⟨happlies, hascending, hnarrates.afterAll, fun key => ?_, hwaits, ?_, ?_, ?_⟩
      · rw [happlied]
        exact hkeys key
      · exact iff_of_true rfl hsome
      · exact fun _ => ⟨front, rfl, hfront, hkinds⟩
      · intro hnone
        exact absurd hnone hsome

/-- **A second look finds nothing to do.**  What waits has no known order, and its keys are not in
the books, for then it would have been drained. -/
theorem Drains.recheck_again (h : r.Drains isKnown es isNew s) :
    s.recheck isKnown = ⟨[], .ok (false, s)⟩ := by
  have hready : s.ready isKnown = [] := by
    rw [List.eq_nil_iff_forall_not_mem]
    intro t ht
    obtain ⟨hmem, -, hknown⟩ := mem_ready.mp ht
    obtain ⟨-, -, hunknown⟩ := (h.waits t).mp hmem
    rw [hknown] at hunknown
    cases hunknown
  -- A trade that waits has not been booked under the key of another one: no two have the same key.
  have hwaiting : s.waiting isKnown = s.pending := by
    refine Pending.discard_eq_self fun t ht => ?_
    obtain ⟨hmem, hfresh, hunknown⟩ := (h.waits t).mp ht
    rw [hunknown, Bool.or_false, ← Bool.not_eq_true, h.keys, not_or]
    refine ⟨Bool.not_eq_true _ ▸ hfresh, fun hkey => ?_⟩
    obtain ⟨u, hu, hkey⟩ := List.mem_map.mp hkey
    obtain ⟨humem, -, hknown⟩ := (h.applies u).mp hu
    obtain rfl := List.inj_on_of_nodup_map r.pending.nodup_keys humem hmem hkey
    cases hknown.symm.trans hunknown
  unfold recheck
  unfold waiting at hwaiting
  rw [hready, hwaiting]
  rfl

end Reconciler

/-- **A look drains exactly the matched trades.**  After any run from a fresh desk, a look applies
those of the pending trades whose keys do not count as applied and whose orders are known, by
ascending number and each once.  Afterwards those wait whose keys did not count as applied and whose
orders are not known.  The look says whether it has applied a trade.  If so, it announces each trade
with what it earns, and then the position; if not, it announces nothing, and the position and the
books are as they were.  A second look at the same orders does nothing.
Source: `process`, with `filter` of `TradeStore`. -/
theorem look_drains_matched {symbol : String} {terms : Terms} {settings : ServiceSettings}
    {known : KnownOrders} {happenings : List Happening} {c : Chronicle}
    (h : (Chronicle.opening (.fresh symbol terms settings known)).run happenings = .ok c)
    {isKnown : UInt64 → Bool} {es : List Event} {isNew : Bool} {r : Reconciler}
    (hlook : c.reconciler.recheck isKnown = ⟨es, .ok (isNew, r)⟩) :
    c.reconciler.Drains isKnown es isNew r ∧
    r.applied.size = c.reconciler.applied.size + (appliedIn es).length ∧
    r.position.tradeCount = c.reconciler.position.tradeCount + (appliedIn es).length ∧
    r.recheck isKnown = ⟨[], .ok (false, r)⟩ := by
  obtain ⟨haccounts, -⟩ := accounts_of_run_fresh h
  have haccounts' := haccounts.steps (Reconciler.steps_of_recheck hlook).1
  have hdrains := Reconciler.drains_of_recheck hlook
  refine ⟨hdrains, ?_, ?_, hdrains.recheck_again⟩
  · rw [haccounts'.size, haccounts.size, List.length_append]
  · rw [haccounts'.tradeCount, haccounts.tradeCount, List.length_append]

/-- The first trade is left over after it was handed over twice, and two more are pending. -/
def sampleBacklog : List Happening := [
  .delivered (sampleTrade 1 .buy 100 1 1),
  .added (sampleOrder 1),
  .delivered (sampleTrade 1 .buy 100 1 1),
  .delivered (sampleTrade 3 .sell 103 1 1),
  .delivered (sampleTrade 2 .buy 101 2 1)]

/-- A look that knows all orders but the third: the first trade is left over and goes, the second
one is applied, and the third one waits. -/
theorem look_drains_matched_sampleBacklog :
    Yields (sampleOpening.run sampleBacklog) fun c =>
      c.reconciler.pending.toList.map Trade.id = [1, 2, 3] ∧
      ∃ es r, c.reconciler.recheck (· != 3) = ⟨es, .ok (true, r)⟩ ∧
        (appliedIn es).map Trade.id = [2] ∧ r.applied.size = 2 ∧
        r.pending.toList.map Trade.id = [3] ∧ r.recheck (· != 3) = ⟨[], .ok (false, r)⟩ := by
  have hrun : Yields (sampleOpening.run sampleBacklog) fun c =>
      c.reconciler.pending.toList.map Trade.id = [1, 2, 3] ∧ c.reconciler.applied.size = 1 ∧
        (appliedIn (c.reconciler.recheck (· != 3)).events).map Trade.id = [2] ∧
        Yields (c.reconciler.recheck (· != 3)).result fun a =>
          a.1 = true ∧ a.2.pending.toList.map Trade.id = [3] := by decide +kernel
  obtain ⟨c, hrun, hpending, hsize, hids, ⟨_, r⟩, hresult, rfl, hwaits⟩ := hrun
  have hlook : c.reconciler.recheck (· != 3) =
      ⟨(c.reconciler.recheck (· != 3)).events, .ok (true, r)⟩ := by rw [← hresult]
  obtain ⟨-, happlied, -, hagain⟩ := look_drains_matched hrun hlook
  refine ⟨c, hrun, hpending, _, r, hlook, hids, ?_, hwaits, hagain⟩
  rw [happlied, hsize, ← List.length_map Trade.id, hids]
  rfl

end CostBasis
