import CostBasis.Proofs.Reconciler.Shift

/-!
# What the inbox takes is delivered

Whatever order the turns come in, the trades that the inbox has taken are those that were taken out
of it to be delivered, in their order, and then those that are in it.  No shift loses one: a trade
is taken out as its job begins, a service leaves between two jobs only, and the next shift goes on
with the same inbox.

So once the inbox is empty and the last job is done, and if the orders of all the trades were known
throughout, the reconciler is where these trades lead it when they are delivered one after another.

Main statement: `inbox_loses_nothing`.
-/

namespace CostBasis

namespace Reconciler

variable {r s : Reconciler} {isKnown : UInt64 → Bool} {origin : Origin} {t : Trade}
  {es : List Event} {isNew : Bool}

/-! ## Trades whose orders are known -/

/-- A trade whose order is known is not kept. -/
theorem pending_deliver (hknown : isKnown t.orderId = true)
    (h : r.deliver isKnown origin t = ⟨es, .ok (isNew, s)⟩) : s.pending = r.pending := by
  cases deliver_eq_ok h with
  | ignored => rfl
  | kept fresh sound unknown => exact absurd hknown unknown
  | booked => rfl

/-- Where nothing is pending a look changes nothing, whatever it is told. -/
theorem eq_of_recheckWhen {told : Trade → Bool} (hpending : r.pending.toList = [])
    (h : r.recheckWhen told = ⟨es, .ok (isNew, s)⟩) : s = r := by
  have hready : r.readyWhen told = [] := by simp [readyWhen, hpending]
  have hwaiting : r.waitingWhen told = r.pending := by
    rw [Pending.eq_empty_of_toList hpending]
    refine Pending.eq_empty_of_toList (List.eq_nil_iff_forall_not_mem.mpr fun t ht => ?_)
    simp [mem_waitingWhen, hpending] at ht
  cases recheckWhen_eq_ok h with
  | idle => rw [hwaiting]
  | booked front s ready => exact absurd hready ready

/-- One more trade at the end. -/
theorem deliverAll_concat {ts : List Trade} {fs : List Event} {n : ℕ} {s' : Reconciler}
    (h : r.deliverAll isKnown origin ts = ⟨es, .ok (n, s)⟩)
    (ht : s.deliver isKnown origin t = ⟨fs, .ok (isNew, s')⟩) :
    ∃ gs k, r.deliverAll isKnown origin (ts ++ [t]) = ⟨gs, .ok (k, s')⟩ := by
  rw [deliverAll_append, h, Journal.bind_of_ok rfl, deliverAll_cons, ht]
  exact ⟨_, _, rfl⟩

end Reconciler

namespace Minutes

variable {m m' : Minutes} {turn : Turn} {symbol : String} {terms : Terms} {isKnown : UInt64 → Bool}

/-! ## The inbox -/

/-- Nothing that the inbox has taken is lost, doubled or overtaken. -/
structure Custody (capacity : ℕ) (m : Minutes) : Prop where
  accepted : m.accepted = m.passed ++ m.inbox.trades
  capacity : m.inbox.capacity = capacity
  isOpen : m.inbox.isOpen = true

variable {capacity : ℕ}

/-- At first nothing has been taken and nothing is in the inbox. -/
theorem custody_fresh (symbol : String) (terms : Terms) (settings : ServiceSettings)
    (known : KnownOrders) :
    Custody (max settings.queueCapacity 1) (fresh symbol terms settings known) :=
  ⟨rfl, rfl, rfl⟩

/-- **A turn loses nothing.**  A trade that is accepted comes to the end of the inbox, and one that
is taken out comes from its front. -/
theorem Custody.change (h : Custody capacity m) (hchange : Change m turn m') :
    Custody capacity m' := by
  have hopen : m'.inbox.isOpen = true := (isOpen_of_change hchange).trans h.isOpen
  cases hchange with
  | learned known => exact ⟨h.accepted, h.capacity, hopen⟩
  | accepted turn t inbox callers put =>
      obtain ⟨htrades, hcapacity, -, -⟩ := Inbox.put_eq_ok put
      refine ⟨?_, hcapacity.trans h.capacity, hopen⟩
      show m.accepted ++ [t] = m.passed ++ inbox.trades
      rw [h.accepted, htrades, List.append_assoc]
  | signalled =>
      refine ⟨?_, m.inbox.capacity_signal.trans h.capacity, hopen⟩
      show m.accepted = m.passed ++ m.inbox.signal.trades
      rw [h.accepted, Inbox.trades_signal]
  | asked task free => exact ⟨h.accepted, h.capacity, hopen⟩
  | woke wake task service free begun =>
      have hbegins := Service.begin?_eq_some begun
      refine ⟨?_, hbegins.capacity.trans h.capacity, hopen⟩
      show m.accepted = m.passed ++ task.handed ++ service.inbox.trades
      rw [h.accepted, List.append_assoc, ← hbegins.trades]
      rfl
  | finished => exact ⟨h.accepted, h.capacity, hopen⟩
  | idle => exact ⟨h.accepted, h.capacity, hopen⟩

/-- A run loses nothing. -/
theorem Custody.run (turns : List Turn) (h : Custody capacity m) (hrun : m.run turns = .ok m') :
    Custody capacity m' :=
  preserved_of_run turns (fun _ h hchange => h.change hchange) h hrun

/-- What the inbox has taken stays so. -/
theorem prefix_accepted_of_change (h : Change m turn m') : m.accepted <+: m'.accepted := by
  cases h with
  | accepted turn t => exact List.prefix_append _ _
  | _ => exact List.prefix_rfl

/-- So it is in a run. -/
theorem prefix_accepted_of_run (turns : List Turn) (hrun : m.run turns = .ok m') :
    m.accepted <+: m'.accepted :=
  preserved_of_run (P := fun late => m.accepted <+: late.accepted) turns
    (fun _ h hchange => h.trans (prefix_accepted_of_change hchange)) List.prefix_rfl hrun

/-! ## Trades whose orders are known throughout -/

/-- The trade that a job is about, if there is one. -/
def inHand (m : Minutes) : List Trade := (m.shift.phase.job?.map fun job => job.task.handed).getD []

/-- Without a job no trade is in hand. -/
theorem inHand_eq_nil (h : m.shift.phase.job? = none) : m.inHand = [] := by
  simp [inHand, h]

/-- The trades that were taken out of the inbox, but for the one in hand, have been delivered one
after another, and nothing else has happened to the reconciler. -/
structure Drains (symbol : String) (terms : Terms) (isKnown : UInt64 → Bool) (m : Minutes) :
    Prop where
  pending : m.reconciler.pending.toList = []
  delivered : ∃ done es n, (Reconciler.start symbol terms).deliverAll isKnown .live done =
    ⟨es, .ok (n, m.reconciler)⟩ ∧ m.passed = done ++ m.inHand
  live : ∀ job, m.shift.phase.job? = some job → job.task = .look ∨ ∃ t, job.task = .take .live t

/-- At first nothing was taken out, and nothing has happened to the reconciler. -/
theorem drains_fresh (symbol : String) (terms : Terms) (settings : ServiceSettings)
    (known : KnownOrders) (isKnown : UInt64 → Bool) :
    Drains symbol terms isKnown (fresh symbol terms settings known) :=
  ⟨by simp [fresh, reconciler, Service.start, Reconciler.start], ⟨[], [], 0, rfl, rfl⟩,
    fun job hjob => nomatch hjob⟩

/-- **A turn goes on delivering**, if the order of the trade in hand is known.  A look changes
nothing meanwhile, as nothing is pending. -/
theorem Drains.change (h : Drains symbol terms isKnown m)
    (hknown : ∀ t ∈ m.inHand, isKnown t.orderId = true ∧ m.Knows t.orderId)
    (hasked : ∀ task, turn = .asked task → task = .look) (hchange : Change m turn m') :
    Drains symbol terms isKnown m' := by
  obtain ⟨hpending, ⟨done, es, n, hdone, hpassed⟩, hlive⟩ := h
  cases hchange with
  | learned known =>
      have hjob := m.shift.phase.job?_learn known
      refine ⟨hpending, ⟨done, es, n, hdone, hpassed.trans ?_⟩, fun job hnew => ?_⟩
      · unfold inHand
        simp only
        rw [hjob, Option.map_map]
        rfl
      · obtain ⟨old, hold, rfl⟩ := Option.map_eq_some_iff.mp (hjob.symm.trans hnew)
        exact hlive old hold
  | accepted => exact ⟨hpending, ⟨done, es, n, hdone, hpassed⟩, hlive⟩
  | signalled => exact ⟨hpending, ⟨done, es, n, hdone, hpassed⟩, hlive⟩
  | asked task free =>
      obtain rfl := hasked task rfl
      rw [inHand_eq_nil free] at hpassed
      refine ⟨hpending, ⟨done, es, n, hdone, hpassed⟩, fun job hjob => ?_⟩
      obtain rfl := Option.some.inj hjob
      exact .inl rfl
  | woke wake task service free begun =>
      have hbegins := Service.begin?_eq_some begun
      rw [inHand_eq_nil free, List.append_nil] at hpassed
      have hsame : service.reconciler = m.reconciler := hbegins.reconciler
      refine ⟨?_, ⟨done, es, n, ?_, ?_⟩, fun job hjob => ?_⟩
      · show service.reconciler.pending.toList = []
        rw [hsame, hpending]
      · show _ = (⟨es, .ok (n, service.reconciler)⟩ : Journal (ℕ × Reconciler))
        rw [hsame, hdone]
      · show m.passed ++ task.handed = done ++ task.handed
        rw [hpassed]
      · obtain rfl := Option.some.inj hjob
        exact hbegins.task.imp_right And.right
  | finished moment job fs isNew reconciler phase busy free performed =>
      have hhand : m.inHand = job.task.handed := by simp [inHand, busy]
      have hfree : ∀ other, phase.job? = some other → False := by
        intro other hother
        rw [free] at hother
        cases hother
      rcases hlive job busy with htask | ⟨t, htask⟩
      · rw [htask] at performed hhand
        obtain rfl := Reconciler.eq_of_recheckWhen hpending performed
        refine ⟨hpending, ⟨done, es, n, hdone, ?_⟩, fun other hother => (hfree other hother).elim⟩
        rw [hpassed, hhand, inHand_eq_nil free]
        rfl
      · rw [htask] at performed hhand
        obtain ⟨hown, hknows⟩ := hknown t (hhand ▸ List.mem_singleton_self t)
        have htold := (hknows.job job busy).isTold moment t rfl
        have hdeliver : m.reconciler.deliver isKnown .live t = ⟨fs, .ok (isNew, reconciler)⟩ := by
          rw [Reconciler.deliver_eq_deliver_told, hown.trans htold.symm]
          exact performed
        obtain ⟨gs, k, hall⟩ := Reconciler.deliverAll_concat hdone hdeliver
        refine ⟨?_, ⟨done ++ [t], gs, k, hall, ?_⟩, fun other hother => (hfree other hother).elim⟩
        · show reconciler.pending.toList = []
          rw [Reconciler.pending_deliver hown hdeliver, hpending]
        · rw [inHand_eq_nil free, List.append_nil]
          exact hpassed.trans (congrArg (done ++ ·) hhand)
  | idle turn phase isDismissed callers same =>
      refine ⟨hpending, ⟨done, es, n, hdone, hpassed.trans ?_⟩, fun job hjob => ?_⟩
      · unfold inHand
        simp only
        rw [same]
      · exact hlive job (same ▸ hjob)

/-- Turns go on delivering, if the orders of all trades are known throughout.  The induction is on
the turns, and what the inbox has accepted in the end includes every trade in hand. -/
theorem Drains.run (turns : List Turn) : ∀ {m : Minutes}, Drains symbol terms isKnown m →
    Custody capacity m → (∀ t ∈ m'.accepted, isKnown t.orderId = true ∧ m.Knows t.orderId) →
    (∀ t ∈ m'.accepted, ∀ known, .learned known ∈ turns → known.contains t.orderId = true) →
    (∀ task, .asked task ∈ turns → task = .look) → m.run turns = .ok m' →
      Drains symbol terms isKnown m' := by
  induction turns with
  | nil =>
      intro m h _ _ _ _ hrun
      obtain rfl := Except.ok.inj hrun
      exact h
  | cons turn turns ih =>
      intro m h hcustody hknown hlearned hasked hrun
      have hprefix := prefix_accepted_of_run (turn :: turns) hrun
      rw [run_cons] at hrun
      obtain ⟨m₁, hnext, hrest⟩ := bind_eq_ok.mp hrun
      have hchange := change_of_next hnext
      have hhand : ∀ t ∈ m.inHand, t ∈ m'.accepted := by
        intro t ht
        obtain ⟨done, es, n, -, hpassed⟩ := h.delivered
        apply hprefix.subset
        rw [hcustody.accepted, hpassed]
        simp [ht]
      refine ih (h.change (fun t ht => hknown t (hhand t ht)) ?_ hchange) (hcustody.change hchange)
        ?_ ?_ ?_ hrest
      · intro task hturn
        exact hasked task (by simp [hturn])
      · intro t ht
        obtain ⟨hown, hknows⟩ := hknown t ht
        refine ⟨hown, hknows.change (fun known hturn => ?_) hchange⟩
        exact hlearned t ht known (by simp [hturn])
      · intro t ht known hmem
        exact hlearned t ht known (by simp [hmem])
      · intro task hmem
        exact hasked task (by simp [hmem])

/-! ## The inbox loses nothing -/

/-- A trade that is offered is taken or refused, and a trade that is refused leaves everything as it
was. -/
theorem next_offered (m : Minutes) (t : Trade) :
    (∃ e, m.inbox.put t = .error e ∧ m.next (.offered t) = .ok m) ∨
      ∃ inbox, m.inbox.put t = .ok inbox ∧
        m.next (.offered t) = .ok (m.accept t inbox m.shift.callers) := by
  simp only [next]
  cases m.inbox.put t with
  | error e => exact .inl ⟨e, rfl, rfl⟩
  | ok inbox => exact .inr ⟨inbox, rfl, rfl⟩

end Minutes

/-- **The inbox loses nothing.**  Let anything happen, in any order, after a service has been set
up: trades are offered, or put in by those who wait in line; the signal is given; shifts begin and
end; the service wakes up on them.

The trades that the inbox has taken are then those that the service has taken out to deliver them,
and after these the trades that are in it.  There are never more in it than it holds.  It refuses a
trade exactly if it is that full, and this changes nothing; otherwise it takes it.

And if the orders of all these trades were known throughout, and the service was asked for nothing
else than looks at the pending trades, the reconciler is in the end, with no job in hand and nothing
in the inbox, where these trades lead it when they are delivered one after another.
Source: specification, section 5. -/
theorem inbox_loses_nothing {symbol : String} {terms : Terms} {settings : ServiceSettings}
    {known : KnownOrders} {turns : List Turn} {m : Minutes}
    (h : (Minutes.fresh symbol terms settings known).run turns = .ok m) :
    m.accepted = m.passed ++ m.inbox.trades ∧
    m.inbox.trades.length ≤ max settings.queueCapacity 1 ∧
    (∀ t e, m.inbox.put t = .error e ↔
      e = .full ∧ m.inbox.trades.length = max settings.queueCapacity 1) ∧
    (∀ t, if m.inbox.trades.length = max settings.queueCapacity 1 then
        m.next (.offered t) = .ok m
      else ∃ m', m.next (.offered t) = .ok m' ∧ m'.accepted = m.accepted ++ [t]) ∧
    ((∀ t ∈ m.accepted, known.contains t.orderId = true) →
      (∀ t ∈ m.accepted, ∀ learned, .learned learned ∈ turns →
        learned.contains t.orderId = true) →
      (∀ task, .asked task ∈ turns → task = .look) →
      m.inbox.trades = [] → m.shift.phase.job? = none →
      ∀ isKnown : UInt64 → Bool, (∀ t ∈ m.accepted, isKnown t.orderId = true) →
        ∃ es n, (Reconciler.start symbol terms).deliverAll isKnown .live m.accepted =
          ⟨es, .ok (n, m.reconciler)⟩) := by
  have hcustody := (Minutes.custody_fresh symbol terms settings known).run turns h
  have hfull : ∀ t e, m.inbox.put t = .error e ↔
      e = .full ∧ m.inbox.trades.length = max settings.queueCapacity 1 := by
    intro t e
    rw [Inbox.put_eq_error_iff hcustody.isOpen, hcustody.capacity]
  refine ⟨hcustody.accepted, hcustody.capacity ▸ m.inbox.length_le, hfull, ?_, ?_⟩
  · intro t
    split
    next hlength =>
      rcases m.next_offered t with ⟨e, -, hnext⟩ | ⟨inbox, hput, -⟩
      · exact hnext
      · rw [(hfull t .full).mpr ⟨rfl, hlength⟩] at hput
        cases hput
    next hlength =>
      rcases m.next_offered t with ⟨e, hput, -⟩ | ⟨inbox, -, hnext⟩
      · exact absurd ((hfull t e).mp hput).2 hlength
      · exact ⟨_, hnext, rfl⟩
  · intro hknown hlearned hasked hempty hfree isKnown hall
    have hknows : ∀ t ∈ m.accepted, isKnown t.orderId = true ∧
        (Minutes.fresh symbol terms settings known).Knows t.orderId := by
      intro t ht
      exact ⟨hall t ht, hknown t ht, fun job hjob => nomatch hjob⟩
    have hdrains := (Minutes.drains_fresh symbol terms settings known isKnown).run turns
      (Minutes.custody_fresh symbol terms settings known) hknows hlearned hasked h
    obtain ⟨done, es, n, hdone, hpassed⟩ := hdrains.delivered
    -- Nothing is in the inbox or in hand, so all that was taken has been delivered.
    have haccepted : m.accepted = done := by
      rw [hcustody.accepted, hpassed, hempty, Minutes.inHand_eq_nil hfree]
      simp
    rw [haccepted]
    exact ⟨es, n, hdone⟩

/-- The orders of the sample market that are known from the start. -/
def sampleKnown : KnownOrders := (KnownOrders.empty true).addAll [sampleOrder 1, sampleOrder 2]

/-- Two shifts with an inbox for one trade.  The second trade is refused, and waits in line until
the service has taken the first one out.  The service is dismissed while it is still busy with the
first one, so the second one stays in the inbox for the next shift, which begins by heeding the
signal. -/
def sampleShifts : List Turn := [
  .offered (sampleTrade 1 .buy 100 1 1),
  .offered (sampleTrade 2 .sell 103 1 1),
  .called (sampleTrade 2 .sell 103 1 1),
  .opened false,
  .woke .trade,
  .signalled,
  .admitted 0,
  .dismissed,
  .finished fun _ => 0,
  .left,
  .learned (sampleKnown.add (sampleOrder 3)),
  .opened false,
  .woke .signal,
  .finished fun _ => 0,
  .woke .trade,
  .finished fun _ => 0]

/-- The trade that the first shift leaves in the inbox is delivered on the second one. -/
theorem inbox_loses_nothing_sampleShifts :
    Yields ((Minutes.fresh "BTCUSDT" sampleTerms ⟨1, 3000⟩ sampleKnown).run sampleShifts) fun m =>
      m.passed.map Trade.id = [1, 2] ∧ m.accepted = m.passed ∧
        ∃ es n, (Reconciler.start "BTCUSDT" sampleTerms).deliverAll (fun _ => true) .live
          m.accepted = ⟨es, .ok (n, m.reconciler)⟩ := by
  have hrun : Yields
      ((Minutes.fresh "BTCUSDT" sampleTerms ⟨1, 3000⟩ sampleKnown).run sampleShifts) fun m =>
      m.passed.map Trade.id = [1, 2] ∧ m.inbox.trades = [] ∧ m.shift.phase.job?.isNone = true ∧
        ∀ t ∈ m.accepted, t.orderId = 1 ∨ t.orderId = 2 := by decide +kernel
  obtain ⟨m, hrun, hids, hempty, hfree, horders⟩ := hrun
  have hknown : ∀ id : UInt64, id = 1 ∨ id = 2 → sampleKnown.contains id = true ∧
      (sampleKnown.add (sampleOrder 3)).contains id = true := by
    rintro id (rfl | rfl) <;> decide +kernel
  obtain ⟨haccepted, -, -, -, hdrained⟩ := inbox_loses_nothing hrun
  rw [hempty, List.append_nil] at haccepted
  refine ⟨m, hrun, hids, haccepted, hdrained ?_ ?_ ?_ hempty ?_ _ fun _ _ => rfl⟩
  · intro t ht
    exact (hknown _ (horders t ht)).1
  · intro t ht learned hmem
    obtain rfl : learned = sampleKnown.add (sampleOrder 3) := by simpa [sampleShifts] using hmem
    exact (hknown _ (horders t ht)).2
  · intro task hmem
    simp [sampleShifts] at hmem
  · exact Option.isNone_iff_eq_none.mp hfree

end CostBasis
