import CostBasis.Proofs.Reconciler.Run

/-!
# Shifts

A service is on a shift from when it is set to work until it is dismissed.  On a shift it wakes up
for one thing at a time, and does a job for it; off a shift it can be asked for a job.  Meanwhile
the others go on: they put trades into the inbox or wait in line until there is room, they give the
signal, and orders come and go, also in the middle of a job.

What happens is told in turns, in any order.  The minutes keep, beside the shift as it is now, the
trades that the inbox has taken and those that were taken out of it to be delivered, and how often
the signal was given and heeded and a look at the pending trades was begun.  There are no minutes of
turns that meet a fault.

Three things are simpler here than they are with tasks that wait for one another.

* A place that becomes free in the inbox is not kept for those who wait in line: the next one who
  comes with a trade has it, in line or not.  The channel of the source keeps it for the first in
  line.  Its runs are those in which the turn `admitted 0` follows at once upon a trade that is
  taken out while somebody waits.
* That a service is dismissed means that the token given to `run` is cancelled, which the loop
  heeds between two jobs.  Somebody may also drop the loop itself, in the middle of whatever it
  does.  Then nobody reads the inbox any more, and no turn tells of it.
* A service that dies on a shift does not come back, and no turn tells of that either.

Main statements: `change_of_next`, which says what a turn can do, and `run_wakes`, by which a
service on a shift does what a service does.
-/

namespace CostBasis

/-! ## Inboxes -/

namespace Inbox

variable {i j : Inbox} {t : Trade}

/-- A trade that is put in comes behind the others, and nothing else changes. -/
theorem put_eq_ok (h : i.put t = .ok j) :
    j.trades = i.trades ++ [t] ∧ j.capacity = i.capacity ∧ j.isSignalled = i.isSignalled ∧
      j.isOpen = i.isOpen := by
  unfold put at h
  split at h
  · cases h
  · split at h
    · obtain rfl := Except.ok.inj h
      exact ⟨rfl, rfl, rfl, rfl⟩
    · cases h

/-- An open inbox refuses a trade exactly if it is full.
Source: `try_queue_trade`. -/
theorem put_eq_error_iff (hopen : i.isOpen = true) {e : InboxError} :
    i.put t = .error e ↔ e = .full ∧ i.trades.length = i.capacity := by
  have hle := i.length_le
  unfold put
  rw [hopen]
  by_cases hlt : i.trades.length < i.capacity
  · simp [hlt, hlt.ne]
  · have hfull : i.trades.length = i.capacity := by omega
    simp [hfull, eq_comm]

/-- The trade that is taken out is the first one, and nothing else changes. -/
theorem take?_eq_some (h : i.take? = some (t, j)) :
    i.trades = t :: j.trades ∧ j.capacity = i.capacity ∧ j.isSignalled = i.isSignalled ∧
      j.isOpen = i.isOpen := by
  unfold take? at h
  split at h
  · cases h
  next htrades =>
    obtain ⟨rfl, rfl⟩ := Prod.mk.inj (Option.some.inj h)
    exact ⟨htrades, rfl, rfl, rfl⟩

/-- To give the signal leaves the trades. -/
@[simp] theorem trades_signal (i : Inbox) : i.signal.trades = i.trades := by
  unfold signal
  split <;> rfl

/-- To give the signal leaves the room. -/
@[simp] theorem capacity_signal (i : Inbox) : i.signal.capacity = i.capacity := by
  unfold signal
  split <;> rfl

/-- To give the signal neither opens nor closes the inbox. -/
@[simp] theorem isOpen_signal (i : Inbox) : i.signal.isOpen = i.isOpen := by
  unfold signal
  split <;> rfl

/-- A signal that is given is there then, whether it was there before or not.
Source: `emit` of `CollectorHandle`. -/
theorem isSignalled_signal (hopen : i.isOpen = true) : i.signal.isSignalled = true := by
  unfold signal
  rw [if_pos hopen]

end Inbox

/-! ## Jobs -/

/-- How many looks at the pending trades a task is. -/
def Reconciler.Task.looks : Reconciler.Task → ℕ
  | .look => 1
  | .take .. => 0

/-- How many signals are heeded when a service wakes up. -/
def Wake.heeds : Wake → ℕ
  | .signal => 1
  | .tick | .trade => 0

/-- A thing that a service is about to do. -/
structure Job where
  /-- What the reconciler is asked to do. -/
  task : Reconciler.Task
  /-- Whether it is done on a shift. -/
  isOnShift : Bool
  /-- The orders that were known when the job was begun. -/
  known : KnownOrders
  /-- What has been known since, one after another. -/
  news : List KnownOrders

/-- Whether the order of a trade is known to a job, which asks for each trade when there has been so
much of the news. -/
def Job.told (job : Job) (moment : Trade → ℕ) (t : Trade) : Bool :=
  (job.known.after (job.news.take (moment t))).contains t.orderId

/-- A job without news is told what was known when it was begun. -/
theorem Job.told_of_news {job : Job} (h : job.news = []) (moment : Trade → ℕ) :
    job.told moment = fun t => job.known.contains t.orderId := by
  funext t
  rw [told, h, List.take_nil]
  rfl

/-- An order is known as long as a job lasts. -/
def Job.Knows (job : Job) (id : UInt64) : Prop :=
  job.known.contains id = true ∧ ∀ known ∈ job.news, known.contains id = true

/-- Then the job is told so of the trades of the order, whenever it asks, before the news or after
some of it. -/
theorem Job.Knows.isTold {job : Job} {id : UInt64} (h : job.Knows id) (moment : Trade → ℕ)
    (t : Trade) (ht : t.orderId = id) : job.told moment t = true := by
  unfold Job.told
  rw [ht]
  rcases KnownOrders.after_eq_or_mem job.known (job.news.take (moment t)) with hsame | hmem
  · rw [hsame]
    exact h.1
  · exact h.2 _ (List.mem_of_mem_take hmem)

/-- An order that is known at the news has been known as long as before, and is still. -/
theorem Job.Knows.learn {job : Job} {id : UInt64} {known : KnownOrders} (h : job.Knows id)
    (hknown : known.contains id = true) :
    Job.Knows { job with news := job.news ++ [known] } id := by
  refine ⟨h.1, fun k hk => ?_⟩
  rcases List.mem_append.mp hk with hk | hk
  · exact h.2 k hk
  · rw [List.mem_singleton.mp hk]
    exact hknown

/-- What a service is at. -/
inductive Phase where
  /-- It is off a shift, and nobody asks it for anything. -/
  | away
  /-- It is on a shift and waits for something to wake up for. -/
  | waiting
  /-- It does a job. -/
  | busy (job : Job)

/-- The job that is being done. -/
def Phase.job? : Phase → Option Job
  | .busy job => some job
  | .away | .waiting => none

/-- News about orders reaches a job in the middle. -/
def Phase.learn (known : KnownOrders) : Phase → Phase
  | .busy job => .busy { job with news := job.news ++ [known] }
  | phase => phase

/-- News reaches the job that is being done, and begins or ends none. -/
theorem Phase.job?_learn (known : KnownOrders) (phase : Phase) :
    (phase.learn known).job? =
      phase.job?.map fun job => { job with news := job.news ++ [known] } := by
  cases phase <;> rfl

namespace Service

/-- What it takes to begin a job: the trade that is handed over, or the signal that is heeded. -/
structure Begins (s : Service) (wake : Wake) (task : Reconciler.Task) (s' : Service) : Prop where
  reconciler : s'.reconciler = s.reconciler
  trades : s.inbox.trades = task.handed ++ s'.inbox.trades
  signals : s.inbox.isSignalled.toNat = wake.heeds + s'.inbox.isSignalled.toNat
  capacity : s'.inbox.capacity = s.inbox.capacity
  isOpen : s'.inbox.isOpen = s.inbox.isOpen
  task : task = .look ∨ wake.heeds = 0 ∧ ∃ t, task = .take .live t

/-- A job that is begun is a trade that was taken out of the inbox, or a look at the pending
trades. -/
theorem begin?_eq_some {s s' : Service} {wake : Wake} {task : Reconciler.Task}
    (h : s.begin? wake = some (task, s')) : s.Begins wake task s' := by
  cases wake with
  | tick =>
      simp only [begin?] at h
      split at h
      · obtain ⟨rfl, rfl⟩ := Prod.mk.inj (Option.some.inj h)
        exact ⟨rfl, rfl, (Nat.zero_add _).symm, rfl, rfl, .inl rfl⟩
      · cases h
  | signal =>
      simp only [begin?] at h
      split at h
      next hsignalled =>
        obtain ⟨rfl, rfl⟩ := Prod.mk.inj (Option.some.inj h)
        exact ⟨rfl, rfl, by rw [hsignalled]; rfl, rfl, rfl, .inl rfl⟩
      · cases h
  | trade =>
      simp only [begin?] at h
      obtain ⟨⟨t, inbox⟩, htake, hbegun⟩ := Option.map_eq_some_iff.mp h
      obtain ⟨rfl, rfl⟩ := Prod.mk.inj hbegun
      obtain ⟨htrades, hcapacity, hsignalled, hopen⟩ := Inbox.take?_eq_some htake
      refine ⟨rfl, htrades, ?_, hcapacity, hopen, .inr ⟨rfl, t, rfl⟩⟩
      simp [hsignalled, Wake.heeds]

end Service

/-! ## Turns -/

/-- A service with those around it. -/
structure Shift where
  /-- The service. -/
  service : Service
  /-- The known orders. -/
  known : KnownOrders
  /-- What the service is at. -/
  phase : Phase
  /-- Whether the service has been told to leave. -/
  isDismissed : Bool
  /-- The trades that others wait with for room in the inbox. -/
  callers : List Trade

/-- What can happen. -/
inductive Turn where
  /-- Orders become known or are forgotten. -/
  | learned (known : KnownOrders)
  /-- A trade is put into the inbox if there is room, even where others wait in line for it. -/
  | offered (t : Trade)
  /-- Somebody with a trade gets in line. -/
  | called (t : Trade)
  /-- Somebody in line puts the trade into the inbox, if there is room.  It need not be the first
  in line. -/
  | admitted (place : ℕ)
  /-- Somebody in line goes away. -/
  | withdrew (place : ℕ)
  /-- The signal is given. -/
  | signalled
  /-- Off a shift the service is asked for something. -/
  | asked (task : Reconciler.Task)
  /-- A shift begins; it may be over at once. -/
  | opened (isDismissed : Bool)
  /-- The service is told to leave, by the token that it was given. -/
  | dismissed
  /-- On a shift the service wakes up, and begins a job if there is one. -/
  | woke (wake : Wake)
  /-- The job is done; it has asked for the order of each trade at some moment. -/
  | finished (moment : Trade → ℕ)
  /-- The service has been told to leave, and leaves between two jobs. -/
  | left

/-- What has happened so far. -/
structure Minutes where
  /-- The shift as it is now. -/
  shift : Shift
  /-- The trades that the inbox has taken. -/
  accepted : List Trade
  /-- The trades that were taken out of the inbox to be delivered. -/
  passed : List Trade
  /-- How often a signal was given while there was none. -/
  raised : ℕ
  /-- How often a signal was heeded. -/
  heeded : ℕ
  /-- How often a look at the pending trades was begun. -/
  looks : ℕ

namespace Minutes

/-- Nothing has happened yet. -/
def fresh (symbol : String) (terms : Terms) (settings : ServiceSettings) (known : KnownOrders) :
    Minutes :=
  ⟨⟨.start (.start symbol terms) settings, known, .away, false, []⟩, [], [], 0, 0, 0⟩

/-- The reconciler as it is now. -/
def reconciler (m : Minutes) : Reconciler := m.shift.service.reconciler

/-- The inbox as it is now. -/
def inbox (m : Minutes) : Inbox := m.shift.service.inbox

/-- The inbox takes a trade, and those in line are `callers` then. -/
def accept (m : Minutes) (t : Trade) (inbox : Inbox) (callers : List Trade) : Minutes :=
  { m with
    shift := { m.shift with service := { m.shift.service with inbox }, callers }
    accepted := m.accepted ++ [t] }

/-- The service begins a job. -/
def begin (m : Minutes) (task : Reconciler.Task) (isOnShift : Bool) (service : Service) : Minutes :=
  { m with
    shift := { m.shift with service, phase := .busy ⟨task, isOnShift, m.shift.known, []⟩ }
    looks := m.looks + task.looks }

/-- One more turn.  A turn that is not possible changes nothing.

An offer is refused exactly if the inbox is full.  Room that has just become free is nobody's, so an
offer may take it before those in line do; the channel of the source would refuse the offer and keep
the place for the first of them.

Source: `queue_trade` (`called` and `admitted`), `try_queue_trade` (`offered`), `emit`
(`signalled`), `process` and `process_trade` (`asked`), and the loop of `run` (`opened` to `left`),
which is dismissed by its token.  That the loop is dropped half way is left out. -/
def next (m : Minutes) : Turn → Except Fault Minutes
  | .learned known =>
    return { m with shift := { m.shift with known, phase := m.shift.phase.learn known } }
  | .offered t =>
    match m.inbox.put t with
    | .error _ => return m
    | .ok inbox => return m.accept t inbox m.shift.callers
  | .called t => return { m with shift := { m.shift with callers := m.shift.callers ++ [t] } }
  | .admitted place =>
    match m.shift.callers[place]? with
    | none => return m
    | some t =>
      match m.inbox.put t with
      | .error _ => return m
      | .ok inbox => return m.accept t inbox (m.shift.callers.eraseIdx place)
  | .withdrew place =>
    return { m with shift := { m.shift with callers := m.shift.callers.eraseIdx place } }
  | .signalled =>
    return { m with
      shift := { m.shift with service := { m.shift.service with inbox := m.inbox.signal } }
      raised := if m.inbox.isSignalled then m.raised else m.raised + 1 }
  | .asked task =>
    match m.shift.phase with
    | .away => return m.begin task false m.shift.service
    | _ => return m
  | .opened isDismissed =>
    match m.shift.phase with
    | .away => return { m with shift := { m.shift with phase := .waiting, isDismissed } }
    | _ => return m
  | .dismissed => return { m with shift := { m.shift with isDismissed := true } }
  | .woke wake =>
    match m.shift.phase, m.shift.service.begin? wake with
    | .waiting, some (task, service) => return { m.begin task true service with
        passed := m.passed ++ task.handed
        heeded := m.heeded + wake.heeds }
    | _, _ => return m
  | .finished moment =>
    match m.shift.phase with
    | .busy job => do
      let (_, reconciler) ← (m.reconciler.performWhen (job.told moment) job.task).result
      return { m with shift := { m.shift with
        service := { m.shift.service with reconciler }
        phase := if job.isOnShift then .waiting else .away } }
    | _ => return m
  | .left =>
    match m.shift.phase with
    | .waiting =>
      if m.shift.isDismissed then return { m with shift := { m.shift with phase := .away } }
      else return m
    | _ => return m

/-- One turn after another. -/
def run (m : Minutes) (turns : List Turn) : Except Fault Minutes := turns.foldlM next m

/-- A run begins with its first turn. -/
theorem run_cons (m : Minutes) (turn : Turn) (turns : List Turn) :
    m.run (turn :: turns) = m.next turn >>= fun m' => m'.run turns :=
  List.foldlM_cons

/-- A run may be cut in two. -/
theorem run_append (m : Minutes) (turns more : List Turn) :
    m.run (turns ++ more) = m.run turns >>= fun m' => m'.run more :=
  List.foldlM_append

/-! ## What a turn can do -/

/-- What a turn can do. -/
inductive Change (m : Minutes) : Turn → Minutes → Prop
  /-- Orders become known or are forgotten. -/
  | learned (known : KnownOrders) :
      Change m (.learned known)
        { m with shift := { m.shift with known, phase := m.shift.phase.learn known } }
  /-- The inbox takes a trade. -/
  | accepted (turn : Turn) (t : Trade) (inbox : Inbox) (callers : List Trade)
      (put : m.inbox.put t = .ok inbox) : Change m turn (m.accept t inbox callers)
  /-- The signal is given. -/
  | signalled :
      Change m .signalled { m with
        shift := { m.shift with service := { m.shift.service with inbox := m.inbox.signal } }
        raised := if m.inbox.isSignalled then m.raised else m.raised + 1 }
  /-- Off a shift a job is begun. -/
  | asked (task : Reconciler.Task) (free : m.shift.phase.job? = none) :
      Change m (.asked task) (m.begin task false m.shift.service)
  /-- On a shift a job is begun. -/
  | woke (wake : Wake) (task : Reconciler.Task) (service : Service)
      (free : m.shift.phase.job? = none)
      (begun : m.shift.service.begin? wake = some (task, service)) :
      Change m (.woke wake) { m.begin task true service with
        passed := m.passed ++ task.handed
        heeded := m.heeded + wake.heeds }
  /-- A job is done. -/
  | finished (moment : Trade → ℕ) (job : Job) (es : List Event) (isNew : Bool)
      (reconciler : Reconciler) (phase : Phase) (busy : m.shift.phase.job? = some job)
      (free : phase.job? = none)
      (done : m.reconciler.performWhen (job.told moment) job.task = ⟨es, .ok (isNew, reconciler)⟩) :
      Change m (.finished moment)
        { m with shift := { m.shift with service := { m.shift.service with reconciler }, phase } }
  /-- Nothing happens but that somebody comes or goes. -/
  | idle (turn : Turn) (phase : Phase) (isDismissed : Bool) (callers : List Trade)
      (same : phase.job? = m.shift.phase.job?) :
      Change m turn { m with shift := { m.shift with phase, isDismissed, callers } }

/-- **A turn does one of these things.**  There are as many cases as kinds of turns, and twice as
many where a turn may be impossible; everything about runs follows from the changes alone. -/
theorem change_of_next {m m' : Minutes} {turn : Turn} (h : m.next turn = .ok m') :
    Change m turn m' := by
  -- Where nothing is done nothing changes.
  have hnone : ∀ {m' : Minutes}, (pure m : Except Fault Minutes) = .ok m' → Change m turn m' := by
    intro m' h
    obtain rfl := Except.ok.inj h
    exact .idle turn m.shift.phase m.shift.isDismissed m.shift.callers rfl
  cases turn with
  | learned known =>
      obtain rfl := Except.ok.inj h
      exact .learned known
  | offered t =>
      simp only [next] at h
      cases hput : m.inbox.put t with
      | error e =>
          rw [hput] at h
          exact hnone h
      | ok inbox =>
          rw [hput] at h
          obtain rfl := Except.ok.inj h
          exact .accepted _ t inbox _ hput
  | called t =>
      obtain rfl := Except.ok.inj h
      exact .idle _ _ _ _ rfl
  | admitted place =>
      simp only [next] at h
      split at h
      · exact hnone h
      next t _ =>
        cases hput : m.inbox.put t with
        | error e =>
            rw [hput] at h
            exact hnone h
        | ok inbox =>
            rw [hput] at h
            obtain rfl := Except.ok.inj h
            exact .accepted _ t inbox _ hput
  | withdrew place =>
      obtain rfl := Except.ok.inj h
      exact .idle _ _ _ _ rfl
  | signalled =>
      obtain rfl := Except.ok.inj h
      exact .signalled
  | asked task =>
      simp only [next] at h
      split at h
      next haway =>
        obtain rfl := Except.ok.inj h
        exact .asked task (by rw [haway]; rfl)
      · exact hnone h
  | opened isDismissed =>
      simp only [next] at h
      split at h
      next haway =>
        obtain rfl := Except.ok.inj h
        exact .idle _ _ _ _ (by rw [haway]; rfl)
      · exact hnone h
  | dismissed =>
      obtain rfl := Except.ok.inj h
      exact .idle _ _ _ _ rfl
  | woke wake =>
      simp only [next] at h
      split at h
      next task service hwaiting hbegun =>
        obtain rfl := Except.ok.inj h
        exact .woke wake task service (by rw [hwaiting]; rfl) hbegun
      · exact hnone h
  | finished moment =>
      simp only [next] at h
      split at h
      next job hbusy =>
        obtain ⟨⟨isNew, reconciler⟩, hresult, h⟩ := bind_eq_ok.mp h
        obtain rfl := Except.ok.inj h
        let work := m.reconciler.performWhen (job.told moment) job.task
        have hwork : work = ⟨work.events, .ok (isNew, reconciler)⟩ := by rw [← hresult]
        refine .finished moment job work.events isNew reconciler _ (by rw [hbusy]; rfl) ?_ hwork
        split <;> rfl
      · exact hnone h
  | left =>
      simp only [next] at h
      split at h
      next hwaiting =>
        split at h
        · obtain rfl := Except.ok.inj h
          exact .idle _ _ _ _ (by rw [hwaiting]; rfl)
        · exact hnone h
      · exact hnone h

/-- **What each turn keeps, a run keeps.**  The induction is on the turns; a hypothesis about the
turns is at hand for each of them. -/
theorem preserved_of_run {P : Minutes → Prop} (turns : List Turn)
    (hchange : ∀ {m m' : Minutes} {turn : Turn}, turn ∈ turns → P m → Change m turn m' → P m') :
    ∀ {m m' : Minutes}, P m → m.run turns = .ok m' → P m' := by
  induction turns with
  | nil =>
      intro m m' h hrun
      obtain rfl := Except.ok.inj hrun
      exact h
  | cons turn turns ih =>
      intro m m' h hrun
      rw [run_cons] at hrun
      obtain ⟨m₁, hnext, hrest⟩ := bind_eq_ok.mp hrun
      refine ih (fun hturn => hchange (List.mem_cons_of_mem turn hturn)) ?_ hrest
      exact hchange List.mem_cons_self h (change_of_next hnext)

/-- Nobody closes the inbox, so a signal can always be given. -/
theorem isOpen_of_change {m m' : Minutes} {turn : Turn} (h : Change m turn m') :
    m'.inbox.isOpen = m.inbox.isOpen := by
  cases h with
  | accepted turn t inbox callers put => exact (Inbox.put_eq_ok put).2.2.2
  | signalled => exact m.inbox.isOpen_signal
  | woke wake task service free begun => exact (Service.begin?_eq_some begun).isOpen
  | learned => rfl
  | asked => rfl
  | finished => rfl
  | idle => rfl

/-- The reconciler changes only as a job is done, and then by the task of this job. -/
theorem reconciler_of_change {m m' : Minutes} {turn : Turn} (h : Change m turn m') :
    m'.reconciler = m.reconciler ∨ ∃ job moment es isNew, m.shift.phase.job? = some job ∧
      m.reconciler.performWhen (job.told moment) job.task = ⟨es, .ok (isNew, m'.reconciler)⟩ := by
  cases h with
  | finished moment job es isNew reconciler phase busy free done =>
      exact .inr ⟨job, moment, es, isNew, busy, done⟩
  | woke wake task service free begun => exact .inl (Service.begin?_eq_some begun).reconciler
  | learned => exact .inl rfl
  | accepted => exact .inl rfl
  | signalled => exact .inl rfl
  | asked => exact .inl rfl
  | idle => exact .inl rfl

/-! ## Orders that are known -/

/-- An order is known now, and has been as long as the job that is being done. -/
structure Knows (m : Minutes) (id : UInt64) : Prop where
  known : m.shift.known.contains id = true
  job : ∀ job, m.shift.phase.job? = some job → job.Knows id

/-- A job that is begun now knows of the orders that are known now. -/
theorem knows_begin {m : Minutes} {id : UInt64} (h : m.shift.known.contains id = true)
    (task : Reconciler.Task) (isOnShift : Bool) (service : Service) :
    (m.begin task isOnShift service).Knows id := by
  refine ⟨h, fun job hjob => ?_⟩
  obtain rfl := Option.some.inj hjob
  exact ⟨h, fun known hknown => absurd hknown List.not_mem_nil⟩

/-- An order stays known if it is not forgotten: the only turn that changes what is known is one
that tells it. -/
theorem known_of_change {m m' : Minutes} {turn : Turn} {id : UInt64}
    (h : m.shift.known.contains id = true)
    (hlearned : ∀ known, turn = .learned known → known.contains id = true)
    (hchange : Change m turn m') : m'.shift.known.contains id = true := by
  cases hchange with
  | learned known => exact hlearned known rfl
  | accepted => exact h
  | signalled => exact h
  | asked => exact h
  | woke => exact h
  | finished => exact h
  | idle => exact h

/-- Then it stays known to the job that is being done, too, and to one that is begun. -/
theorem Knows.change {m m' : Minutes} {turn : Turn} {id : UInt64} (h : m.Knows id)
    (hlearned : ∀ known, turn = .learned known → known.contains id = true)
    (hchange : Change m turn m') : m'.Knows id := by
  refine ⟨known_of_change h.known hlearned hchange, fun job hjob => ?_⟩
  cases hchange with
  | learned known =>
      have hjob : (m.shift.phase.learn known).job? = some job := hjob
      rw [Phase.job?_learn] at hjob
      obtain ⟨old, hold, rfl⟩ := Option.map_eq_some_iff.mp hjob
      exact (h.job old hold).learn (hlearned known rfl)
  | accepted => exact h.job job hjob
  | signalled => exact h.job job hjob
  | asked task free => exact (knows_begin h.known ..).job job hjob
  | woke wake task service free begun =>
      exact (knows_begin h.known task true service).job job hjob
  | finished moment other es isNew reconciler phase busy free done =>
      rw [show phase.job? = some job from hjob] at free
      cases free
  | idle turn phase isDismissed callers same => exact h.job job (same ▸ hjob)

/-! ## What a service does by itself -/

/-- A job that is done leaves the reconciler where its task leads it, and the service waits
again. -/
theorem next_finished {m : Minutes} {job : Job} {moment : Trade → ℕ} {isNew : Bool}
    {reconciler : Reconciler} (hbusy : m.shift.phase = .busy job)
    (h : (m.reconciler.performWhen (job.told moment) job.task).result = .ok (isNew, reconciler)) :
    m.next (.finished moment) = .ok { m with shift := { m.shift with
      service := { m.shift.service with reconciler }
      phase := if job.isOnShift then .waiting else .away } } := by
  simp only [next, hbusy, h]
  rfl

/-- A service on a shift that wakes up, and does its job before anything else happens, does what a
service does when it wakes up. -/
theorem run_woke_finished {m : Minutes} {wake : Wake} {es : List Event} {service : Service}
    (hwaiting : m.shift.phase = .waiting)
    (h : m.shift.service.onWake m.shift.known.contains wake = ⟨es, .ok service⟩)
    (moment : Trade → ℕ) :
    ∃ m', m.run [.woke wake, .finished moment] = .ok m' ∧ m'.shift.service = service ∧
      m'.shift.phase = .waiting ∧ m'.shift.known = m.shift.known := by
  rw [Service.onWake_eq_onWakeWhen, Service.onWakeWhen] at h
  cases hbegin : m.shift.service.begin? wake with
  | none =>
      rw [hbegin] at h
      obtain ⟨-, rfl⟩ := Journal.pure_eq_ok h
      have hwoke : m.next (.woke wake) = .ok m := by
        simp only [next, hwaiting, hbegin]
        rfl
      have hfinished : m.next (.finished moment) = .ok m := by
        simp only [next, hwaiting]
        rfl
      refine ⟨m, ?_, rfl, hwaiting, rfl⟩
      rw [run_cons, hwoke, ok_bind, run_cons, hfinished]
      rfl
  | some begun =>
      obtain ⟨task, s⟩ := begun
      rw [hbegin] at h
      obtain ⟨⟨isNew, reconciler⟩, hperform, rfl⟩ := Journal.map_eq_ok
        (g := fun (done : Bool × Reconciler) => { s with reconciler := done.2 }) h
      let begun : Minutes := { m.begin task true s with
        passed := m.passed ++ task.handed, heeded := m.heeded + wake.heeds }
      have hwoke : m.next (.woke wake) = .ok begun := by
        simp only [next, hwaiting, hbegin]
        rfl
      have hresult : (begun.reconciler.performWhen (Job.told ⟨task, true, m.shift.known, []⟩ moment)
          task).result = .ok (isNew, reconciler) := by
        rw [Job.told_of_news rfl]
        exact congrArg Journal.result hperform
      have hfinished := next_finished (m := begun) rfl hresult
      have hrun : m.run [.woke wake, .finished moment] = begun.next (.finished moment) := by
        rw [run_cons, hwoke, ok_bind, run_cons]
        exact bind_pure _
      exact ⟨_, hrun.trans hfinished, rfl, rfl, rfl⟩

/-- **A service on a shift that is left alone does what it does when it wakes up one time after
another.** -/
theorem run_wakes (moment : Trade → ℕ) (wakes : List Wake) :
    ∀ {m : Minutes} {es : List Event} {service : Service}, m.shift.phase = .waiting →
      m.shift.service.onWakes m.shift.known.contains wakes = ⟨es, .ok service⟩ →
        ∃ m', m.run (wakes.flatMap fun wake => [.woke wake, .finished moment]) = .ok m' ∧
          m'.shift.service = service ∧ m'.shift.phase = .waiting := by
  induction wakes with
  | nil =>
      intro m es service hwaiting h
      obtain ⟨-, rfl⟩ := Journal.pure_eq_ok h
      exact ⟨m, rfl, rfl, hwaiting⟩
  | cons wake wakes ih =>
      intro m es service hwaiting h
      rw [Service.onWakes, List.foldlM_cons] at h
      obtain ⟨first, s, rest, hone, hrest, -⟩ := Journal.bind_eq_ok.mp h
      obtain ⟨m', hm', rfl, hwaiting', hknown⟩ := run_woke_finished hwaiting hone moment
      rw [← hknown] at hrest
      obtain ⟨m'', hm'', hservice, hphase⟩ := ih hwaiting' hrest
      refine ⟨m'', ?_, hservice, hphase⟩
      rw [List.flatMap_cons, run_append, hm']
      exact hm''

end Minutes

end CostBasis
