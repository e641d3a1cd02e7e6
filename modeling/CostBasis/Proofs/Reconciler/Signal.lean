import CostBasis.Proofs.Reconciler.Books
import CostBasis.Proofs.Reconciler.Shift

/-!
# No signal is lost

There is room for one signal, and it is not given again while it is there.  So that nothing is
missed, a service that heeds it takes it away first and begins its look afterwards: what became
known before the signal was given, however it met with one that was there already, is known when
that look begins.

A look takes time, and others go on meanwhile.  An order that stays known is known whenever the look
asks for it, so when it is done none of its trades is pending; and none is kept afterwards.

Main statement: `no_signal_lost`.
-/

namespace CostBasis

/-! ## Orders with pending trades -/

namespace Reconciler

variable {r s : Reconciler} {told : Trade → Bool} {id : UInt64} {es : List Event} {isNew : Bool}

/-- No trade of an order is pending. -/
def IsClearOf (r : Reconciler) (id : UInt64) : Prop := ∀ t ∈ r.pending.toList, t.orderId ≠ id

/-- A look leaves no trade of a known order pending. -/
theorem isClearOf_of_recheckWhen (hknown : ∀ t, t.orderId = id → told t = true)
    (h : r.recheckWhen told = ⟨es, .ok (isNew, s)⟩) : s.IsClearOf id := by
  intro t ht horder
  rw [(steps_of_recheckWhen h).2] at ht
  obtain ⟨-, -, hunknown⟩ := mem_waitingWhen.mp ht
  exact hunknown (hknown t horder)

/-- No trade of a known order comes to be pending: a trade that is handed over is applied at once,
and a look adds none. -/
theorem IsClearOf.performWhen {task : Task} (h : r.IsClearOf id)
    (hknown : ∀ t, t.orderId = id → told t = true)
    (hperform : r.performWhen told task = ⟨es, .ok (isNew, s)⟩) : s.IsClearOf id := by
  cases task with
  | look => exact isClearOf_of_recheckWhen hknown hperform
  | take origin t =>
      rw [Reconciler.performWhen] at hperform
      cases deliver_eq_ok hperform with
      | ignored => exact h
      | kept fresh sound unknown =>
          intro u hu horder
          rcases Pending.eq_or_mem_of_mem_add hu with rfl | hmem
          · exact unknown (hknown u horder)
          · exact h u hmem horder
      | booked => exact h

end Reconciler

namespace Minutes

variable {m m' : Minutes} {turn : Turn} {id : UInt64}

/-! ## Looks that are begun -/

/-- A look is being done, all through which an order has been known. -/
def LooksKnowing (m : Minutes) (id : UInt64) : Prop :=
  ∃ job, m.shift.phase.job? = some job ∧ job.task = .look ∧ job.Knows id

/-- A look at the pending trades is begun. -/
structure BeginsLook (m m' : Minutes) : Prop where
  reconciler : m'.reconciler = m.reconciler
  knowing : ∀ id, m.shift.known.contains id = true → m'.LooksKnowing id

/-- A turn begins a look or none, and a look that is begun counts. -/
theorem looks_of_change (h : Change m turn m') :
    m'.looks = m.looks ∨ m'.looks = m.looks + 1 ∧ m.BeginsLook m' := by
  have hbegin : ∀ (isOnShift : Bool) (service : Service) id, m.shift.known.contains id = true →
      (m.begin .look isOnShift service).LooksKnowing id := by
    intro isOnShift service id hknown
    exact ⟨_, rfl, rfl, (knows_begin hknown .look isOnShift service).job _ rfl⟩
  cases h with
  | asked task free =>
      cases task with
      | take => exact .inl rfl
      | look => exact .inr ⟨rfl, rfl, hbegin false m.shift.service⟩
  | woke wake task service free begun =>
      cases task with
      | take => exact .inl rfl
      | look => exact .inr ⟨rfl, (Service.begin?_eq_some begun).reconciler, hbegin true service⟩
  | learned => exact .inl rfl
  | accepted => exact .inl rfl
  | signalled => exact .inl rfl
  | finished => exact .inl rfl
  | idle => exact .inl rfl

/-- **A signal stays until a look is begun.**  The only turn that takes it away is the one that
heeds it, and this one begins a look. -/
theorem stays_or_begins (hopen : m.inbox.isOpen = true) (hsignalled : m.inbox.isSignalled = true)
    (h : Change m turn m') : m'.inbox.isSignalled = true ∨ m.looks < m'.looks := by
  cases h with
  | accepted turn t inbox callers put =>
      obtain ⟨-, -, hsame, -⟩ := Inbox.put_eq_ok put
      exact .inl (hsame.trans hsignalled)
  | signalled => exact .inl (Inbox.isSignalled_signal hopen)
  | woke wake task service free begun =>
      have hbegins := Service.begin?_eq_some begun
      rcases hbegins.task with rfl | ⟨hheeds, -⟩
      · exact .inr (Nat.lt_succ_self m.looks)
      · have hsignals := hbegins.signals
        have hsignalled : m.shift.service.inbox.isSignalled = true := hsignalled
        rw [hsignalled, hheeds, Nat.zero_add] at hsignals
        have hstays : service.inbox.isSignalled = true := by simpa using hsignals.symm
        exact .inl hstays
  | learned => exact .inl hsignalled
  | asked => exact .inl hsignalled
  | finished => exact .inl hsignalled
  | idle => exact .inl hsignalled

/-- A look goes on, or is done, and then it has been told of the order all through. -/
theorem LooksKnowing.change (h : m.LooksKnowing id)
    (hlearned : ∀ known, turn = .learned known → known.contains id = true)
    (hchange : Change m turn m') :
    m'.LooksKnowing id ∧ m'.reconciler = m.reconciler ∨
      m'.shift.phase.job? = none ∧ ∃ told es isNew, (∀ t, t.orderId = id → told t = true) ∧
        m.reconciler.recheckWhen told = ⟨es, .ok (isNew, m'.reconciler)⟩ := by
  obtain ⟨job, hjob, htask, hknows⟩ := h
  have hbusy : m.shift.phase.job? ≠ none := by simp [hjob]
  cases hchange with
  | learned known =>
      let told : Job := { job with news := job.news ++ [known] }
      refine .inl ⟨⟨told, ?_, htask, hknows.learn (hlearned known rfl)⟩, rfl⟩
      show (m.shift.phase.learn known).job? = _
      rw [Phase.job?_learn, hjob]
      rfl
  | asked task free => exact absurd free hbusy
  | woke wake task service free begun => exact absurd free hbusy
  | finished moment other es isNew reconciler phase busy free done =>
      obtain rfl : other = job := by simpa [hjob, eq_comm] using busy
      rw [htask] at done
      exact .inr ⟨free, _, es, isNew, hknows.isTold moment, done⟩
  | idle turn phase isDismissed callers same =>
      exact .inl ⟨⟨job, same.trans hjob, htask, hknows⟩, rfl⟩
  | accepted => exact .inl ⟨⟨job, hjob, htask, hknows⟩, rfl⟩
  | signalled => exact .inl ⟨⟨job, hjob, htask, hknows⟩, rfl⟩

/-! ## Signals that are heeded -/

/-- Each signal that was raised has been heeded, but for one that is there. -/
structure Counts (m : Minutes) : Prop where
  isOpen : m.inbox.isOpen = true
  raised : m.raised = m.heeded + m.inbox.isSignalled.toNat

/-- At first no signal was raised or heeded. -/
theorem counts_fresh (symbol : String) (terms : Terms) (settings : ServiceSettings)
    (known : KnownOrders) : Counts (fresh symbol terms settings known) :=
  ⟨rfl, rfl⟩

/-- A turn raises a signal, heeds one, or does neither.  One that is raised while there is one
already is not counted. -/
theorem Counts.change (h : m.Counts) (hchange : Change m turn m') : m'.Counts := by
  refine ⟨(isOpen_of_change hchange).trans h.isOpen, ?_⟩
  have hraised := h.raised
  cases hchange with
  | accepted turn t inbox callers put =>
      obtain ⟨-, -, hsame, -⟩ := Inbox.put_eq_ok put
      show m.raised = m.heeded + inbox.isSignalled.toNat
      rw [hsame, hraised]
  | signalled =>
      show (if m.inbox.isSignalled then m.raised else m.raised + 1) =
        m.heeded + m.inbox.signal.isSignalled.toNat
      rw [Inbox.isSignalled_signal h.isOpen, hraised]
      cases m.inbox.isSignalled <;> simp
  | woke wake task service free begun =>
      have hsignals := (Service.begin?_eq_some begun).signals
      have hraised : m.raised = m.heeded + m.shift.service.inbox.isSignalled.toNat := hraised
      show m.raised = m.heeded + wake.heeds + service.inbox.isSignalled.toNat
      omega
  | learned => exact hraised
  | asked => exact hraised
  | finished => exact hraised
  | idle => exact hraised

/-- So the count is right after every run. -/
theorem Counts.run (turns : List Turn) (h : m.Counts) (hrun : m.run turns = .ok m') : m'.Counts :=
  preserved_of_run turns (fun _ h hchange => h.change hchange) h hrun

/-- The signal was given when `looks` looks had been begun: it is there, or one more was begun. -/
structure Answers (looks : ℕ) (m : Minutes) : Prop where
  isOpen : m.inbox.isOpen = true
  le : looks ≤ m.looks
  answered : m.inbox.isSignalled = true ∨ looks < m.looks

/-- A signal that was given is answered by the look that takes it away, and stays answered. -/
theorem Answers.change {looks : ℕ} (h : Answers looks m) (hchange : Change m turn m') :
    Answers looks m' := by
  obtain ⟨hopen, hle, hanswered⟩ := h
  have hmore : m.looks ≤ m'.looks := by
    rcases looks_of_change hchange with hsame | ⟨hmore, -⟩ <;> omega
  refine ⟨(isOpen_of_change hchange).trans hopen, by omega, ?_⟩
  rcases hanswered with hsignalled | hlt
  · exact (stays_or_begins hopen hsignalled hchange).imp_right (by omega)
  · exact .inr (by omega)

/-- So it is there, or was answered, after every run. -/
theorem Answers.run {looks : ℕ} (turns : List Turn) (h : Answers looks m)
    (hrun : m.run turns = .ok m') : Answers looks m' :=
  preserved_of_run turns (fun _ h hchange => h.change hchange) h hrun

/-- The signal was given when an order was known: it is there, or a look is being done that knows
of the order, or one was done and no trade of the order is pending. -/
structure Hears (id : UInt64) (m : Minutes) : Prop where
  isOpen : m.inbox.isOpen = true
  known : m.shift.known.contains id = true
  heard : m.inbox.isSignalled = true ∨ m.LooksKnowing id ∨ m.Knows id ∧ m.reconciler.IsClearOf id

/-- A signal that was given when an order was known is heard: it stays until a look is begun, the
look is told of the order, and no trade of the order is kept any more. -/
theorem Hears.change (h : Hears id m)
    (hlearned : ∀ known, turn = .learned known → known.contains id = true)
    (hchange : Change m turn m') : Hears id m' := by
  obtain ⟨hopen, hknown, hheard⟩ := h
  have hknown' := known_of_change hknown hlearned hchange
  refine ⟨(isOpen_of_change hchange).trans hopen, hknown', ?_⟩
  rcases hheard with hsignalled | hlooks | ⟨hknows, hclear⟩
  · rcases stays_or_begins hopen hsignalled hchange with hstays | hlt
    · exact .inl hstays
    · obtain ⟨-, hbegins⟩ := (looks_of_change hchange).resolve_left hlt.ne'
      exact .inr (.inl (hbegins.knowing id hknown))
  · rcases hlooks.change hlearned hchange with ⟨hlooks', -⟩ | ⟨hfree, hdone⟩
    · exact .inr (.inl hlooks')
    · obtain ⟨told, es, isNew, htold, hrecheck⟩ := hdone
      exact .inr (.inr ⟨⟨hknown', by simp [hfree]⟩,
        Reconciler.isClearOf_of_recheckWhen htold hrecheck⟩)
  · refine .inr (.inr ⟨hknows.change hlearned hchange, ?_⟩)
    rcases reconciler_of_change hchange with hsame | hdone
    · rw [hsame]
      exact hclear
    · obtain ⟨job, moment, es, isNew, hjob, hperform⟩ := hdone
      exact hclear.performWhen ((hknows.job job hjob).isTold moment) hperform

/-- So it is heard in every run in which the order stays known. -/
theorem Hears.run (turns : List Turn) (h : Hears id m)
    (hlearned : ∀ known, .learned known ∈ turns → known.contains id = true)
    (hrun : m.run turns = .ok m') : Hears id m' :=
  preserved_of_run turns
    (fun hmem h hchange => h.change (fun known hturn => hlearned known (hturn ▸ hmem)) hchange)
    h hrun

/-! ## Trades that are pending when a look is begun -/

/-- A trade is pending while a look is being done that knows of its order, or its key has been
applied. -/
def Settles (t : Trade) (m : Minutes) : Prop :=
  t ∈ m.reconciler.pending.toList ∧ m.LooksKnowing t.orderId ∨ m.reconciler.isApplied t.key = true

/-- A pending trade settles: the look goes on, or it is done and has applied the key of the
trade. -/
theorem Settles.change {t : Trade} (h : Settles t m)
    (hlearned : ∀ known, turn = .learned known → known.contains t.orderId = true)
    (hchange : Change m turn m') : Settles t m' := by
  rcases h with ⟨hmem, hlooks⟩ | happlied
  · rcases hlooks.change hlearned hchange with ⟨hlooks', hsame⟩ | ⟨-, hdone⟩
    · exact .inl ⟨hsame ▸ hmem, hlooks'⟩
    · obtain ⟨told, es, isNew, htold, hrecheck⟩ := hdone
      exact .inr (Reconciler.isApplied_of_recheckWhen hmem (htold t rfl) hrecheck)
  · right
    rcases reconciler_of_change hchange with hsame | hdone
    · rw [hsame]
      exact happlied
    · obtain ⟨job, moment, es, isNew, -, hperform⟩ := hdone
      exact (Reconciler.steps_of_performWhen hperform).isApplied_of_isApplied happlied

/-- So it settles in every run in which its order stays known. -/
theorem Settles.run {t : Trade} (turns : List Turn) (h : Settles t m)
    (hlearned : ∀ known, .learned known ∈ turns → known.contains t.orderId = true)
    (hrun : m.run turns = .ok m') : Settles t m' :=
  preserved_of_run turns
    (fun hmem h hchange => h.change (fun known hturn => hlearned known (hturn ▸ hmem)) hchange)
    h hrun

/-- A trade that is pending when a look is begun settles, if its order is known. -/
theorem settles_of_next {t : Trade} (hknown : m.shift.known.contains t.orderId = true)
    (ht : t ∈ m.reconciler.pending.toList) (hnext : m.next turn = .ok m')
    (hlooks : m.looks < m'.looks) : Settles t m' := by
  obtain ⟨-, hbegins⟩ := (looks_of_change (change_of_next hnext)).resolve_left hlooks.ne'
  exact .inl ⟨hbegins.reconciler ▸ ht, hbegins.knowing t.orderId hknown⟩

end Minutes

/-- **No signal is lost.**  Let anything happen, in any order, after a service has been set up.

As many signals were raised as were heeded, but for one that may still be there.  Whenever the
signal was given, the signal is there now or a look at the pending trades was begun since.

And if the signal is not there, and no look is being done, this has come to the trades of every
order that was known when the signal was given and has stayed known: none of them is pending, and
those that were pending when a look was begun since have been applied.
Source: specification, section 4.4. -/
theorem no_signal_lost {symbol : String} {terms : Terms} {settings : ServiceSettings}
    {known : KnownOrders} {turns : List Turn} {m : Minutes}
    (h : (Minutes.fresh symbol terms settings known).run turns = .ok m) :
    m.raised = m.heeded + m.inbox.isSignalled.toNat ∧
    ∀ earlier later, turns = earlier ++ .signalled :: later →
      ∃ m₁, (Minutes.fresh symbol terms settings known).run (earlier ++ [.signalled]) = .ok m₁ ∧
        m₁.run later = .ok m ∧
        (m.inbox.isSignalled = true ∨ m₁.looks < m.looks) ∧
        (¬m.inbox.isSignalled = true →
          (∀ job, m.shift.phase.job? = some job → job.task ≠ .look) →
          ∀ id, m₁.shift.known.contains id = true →
            (∀ learned, .learned learned ∈ later → learned.contains id = true) →
            (∀ t ∈ m.reconciler.pending.toList, t.orderId ≠ id) ∧
            ∀ mid turn rest m₂ m₃, later = mid ++ turn :: rest → m₁.run mid = .ok m₂ →
              m₂.next turn = .ok m₃ → m₂.looks < m₃.looks →
              ∀ t ∈ m₂.reconciler.pending.toList, t.orderId = id →
                m.reconciler.isApplied t.key = true) := by
  have hcounts := Minutes.counts_fresh symbol terms settings known
  refine ⟨(hcounts.run turns h).raised, ?_⟩
  rintro earlier later rfl
  rw [List.append_cons, Minutes.run_append] at h
  obtain ⟨m₁, hm₁, hlater⟩ := bind_eq_ok.mp h
  -- When it has been given the signal is there.
  obtain ⟨hopen, hsignalled⟩ : m₁.inbox.isOpen = true ∧ m₁.inbox.isSignalled = true := by
    rw [Minutes.run_append] at hm₁
    obtain ⟨m₀, hm₀, hsignal⟩ := bind_eq_ok.mp hm₁
    have hopen := (hcounts.run earlier hm₀).isOpen
    obtain rfl : _ = m₁ := Except.ok.inj hsignal
    exact ⟨m₀.inbox.isOpen_signal.trans hopen, Inbox.isSignalled_signal hopen⟩
  have hanswers : Minutes.Answers m₁.looks m₁ := ⟨hopen, le_rfl, .inl hsignalled⟩
  refine ⟨m₁, hm₁, hlater, (hanswers.run later hlater).answered, ?_⟩
  intro hsilent hidle id hknown hlearned
  have hhears : Minutes.Hears id m₁ := ⟨hopen, hknown, .inl hsignalled⟩
  have hnone : ∀ id, ¬m.LooksKnowing id := fun id ⟨job, hjob, hlook, _⟩ => hidle job hjob hlook
  constructor
  · rcases (hhears.run later hlearned hlater).heard with hstill | hlooks | ⟨-, hclear⟩
    · exact absurd hstill hsilent
    · exact absurd hlooks (hnone id)
    · exact hclear
  · rintro mid turn rest m₂ m₃ rfl hmid hnext hlooks t ht rfl
    rw [Minutes.run_append, hmid, ok_bind, Minutes.run_cons, hnext, ok_bind] at hlater
    have hknown₂ := (hhears.run mid (fun known hmem => hlearned known (by simp [hmem])) hmid).known
    have hsettles := (Minutes.settles_of_next hknown₂ ht hnext hlooks).run rest
      (fun known hmem => hlearned known (by simp [hmem])) hlater
    exact hsettles.resolve_left fun ⟨_, hlooks⟩ => hnone _ hlooks

/-- A trade whose order is not known is pending, and the order becomes known in the middle of a
look. -/
def sampleNotice : List Turn := [
  .offered (sampleTrade 1 .buy 100 1 1),
  .opened false,
  .woke .trade,
  .finished fun _ => 0,
  .woke .tick,
  .learned ((KnownOrders.empty true).add (sampleOrder 1))]

/-- The signal is given again, which makes no difference.  The look is done, and has asked for the
order before it was known; the service leaves, and a new shift begins. -/
def sampleHandover : List Turn := [
  .signalled,
  .finished fun _ => 0,
  .dismissed,
  .left,
  .opened false]

/-- The service heeds the signal, and looks again. -/
def sampleLook : List Turn := [.woke .signal, .finished fun _ => 0]

/-- The signal that is given in the middle of a look is heeded on the next shift, and then no trade
of the order is pending. -/
theorem no_signal_lost_sampleHandover :
    Yields ((Minutes.fresh "BTCUSDT" sampleTerms .standard (.empty true)).run
      (sampleNotice ++ .signalled :: (sampleHandover ++ sampleLook))) fun m =>
      m.raised = m.heeded ∧ (∀ t ∈ m.reconciler.pending.toList, t.orderId ≠ 1) ∧
        m.reconciler.isApplied ⟨"BTCUSDT", 1⟩ = true := by
  have hrun : Yields ((Minutes.fresh "BTCUSDT" sampleTerms .standard (.empty true)).run
      (sampleNotice ++ [.signalled])) fun m₁ =>
      m₁.shift.known.contains 1 = true ∧ Yields (m₁.run sampleHandover) fun m₂ =>
        sampleTrade 1 .buy 100 1 1 ∈ m₂.reconciler.pending.toList ∧
          Yields (m₂.next (.woke .signal)) fun m₃ =>
            m₂.looks < m₃.looks ∧ Yields (m₃.run [.finished fun _ => 0]) fun m =>
              m.inbox.isSignalled = false ∧ m.shift.phase.job?.isNone = true := by decide +kernel
  obtain ⟨m₁, hm₁, hknown, m₂, hm₂, hpending, m₃, hm₃, hlooks, m, hm, hsilent, hfree⟩ := hrun
  have hlater : m₁.run (sampleHandover ++ sampleLook) = .ok m := by
    rw [Minutes.run_append, hm₂, ok_bind, sampleLook, Minutes.run_cons, hm₃, ok_bind, hm]
  have hall : (Minutes.fresh "BTCUSDT" sampleTerms .standard (.empty true)).run
      (sampleNotice ++ .signalled :: (sampleHandover ++ sampleLook)) = .ok m := by
    rw [List.append_cons, Minutes.run_append, hm₁, ok_bind, hlater]
  obtain ⟨hraised, hsignals⟩ := no_signal_lost hall
  obtain ⟨m', hm', -, -, hseen⟩ := hsignals sampleNotice _ rfl
  obtain rfl := Except.ok.inj (hm₁.symm.trans hm')
  have hidle : ∀ job, m.shift.phase.job? = some job → job.task ≠ .look := by
    intro job hjob
    simp [hjob] at hfree
  have hlearned : ∀ learned, Turn.learned learned ∈ sampleHandover ++ sampleLook →
      learned.contains 1 = true := by
    simp [sampleHandover, sampleLook]
  obtain ⟨hclear, happlied⟩ := hseen (by simp [hsilent]) hidle 1 hknown hlearned
  refine ⟨m, hall, by simpa [hsilent] using hraised, hclear, ?_⟩
  exact happlied sampleHandover _ _ m₂ m₃ rfl hm₂ hm₃ hlooks _ hpending rfl

end CostBasis
