import CostBasis.Proofs.Position.Exact
import CostBasis.Proofs.Reconciler.Task
import CostBasis.Order
import CostBasis.Reconciler.Service

/-!
# Runs of a reconciler

A desk has a service and knows of orders.  What happens at a desk happens in any order: orders come
and go, trades are handed over or put into the inbox, histories answer, and the service wakes up for
this or that.  A look at the pending trades and a recovery ask for one order after another, and
others may find out about orders meanwhile.  So each of these happenings comes with the news that
there is in its course, and with the moment at which each trade is asked about; that there is no
news is one case of it.

A chronicle keeps, beside the desk as it is now, the trades that were handed to the reconciler and
the events that it announced.  There is no chronicle of a run that meets a fault.

Main statements: `fulfils_of_run`, by which a run does nothing but the tasks that it has for the
reconciler, and `steps_of_run`, by which it is made of small steps with the labels that are in the
chronicle.
-/

namespace CostBasis

/-! ## The service -/

namespace Service

/-- The trades that the service takes out of its inbox when it wakes up. -/
def taken (s : Service) : Wake → List Trade
  | .trade => (s.inbox.take?.map (·.1)).toList
  | .tick | .signal => []

/-- What the service asks its reconciler to do when it wakes up. -/
def tasks (s : Service) : Wake → List Reconciler.Task
  | .tick => if s.inbox.isOpen then [.look] else []
  | .signal => if s.inbox.isSignalled then [.look] else []
  | .trade => (s.taken .trade).map (.take .live)

/-- A service that wakes up hands over what it takes out of its inbox, and a look hands over
nothing. -/
theorem handed_tasks (s : Service) (wake : Wake) :
    (s.tasks wake).flatMap Reconciler.Task.handed = s.taken wake := by
  cases wake with
  | tick =>
      rw [tasks]
      split <;> rfl
  | signal =>
      rw [tasks]
      split <;> rfl
  | trade =>
      rw [tasks, List.flatMap_map]
      exact List.flatMap_singleton' _

/-- The job that a service begins when it wakes up, if there is one, and the service without what it
wakes up for. -/
def begin? (s : Service) : Wake → Option (Reconciler.Task × Service)
  | .tick => if s.inbox.isOpen then some (.look, s) else none
  | .signal => if s.inbox.isSignalled then some (.look, { s with inbox := s.inbox.heed }) else none
  | .trade => s.inbox.take?.map fun (t, inbox) => (.take .live t, { s with inbox })

/-- What the service does when it wakes up, told of each trade whether its order is known. -/
def onWakeWhen (s : Service) (told : Trade → Bool) (wake : Wake) : Journal Service :=
  match s.begin? wake with
  | none => return s
  | some (task, s') => do
    let (_, reconciler) ← s'.reconciler.performWhen told task
    return { s' with reconciler }

/-- **A service that wakes up begins a job and does it.**  This is the case in which nothing becomes
known or is forgotten while it does. -/
theorem onWake_eq_onWakeWhen (s : Service) (isKnown : UInt64 → Bool) (wake : Wake) :
    s.onWake isKnown wake = s.onWakeWhen (fun t => isKnown t.orderId) wake := by
  cases wake with
  | tick =>
      by_cases h : s.inbox.isOpen = true
      · simp only [onWake, onWakeWhen, begin?, if_pos h]
        rfl
      · simp only [onWake, onWakeWhen, begin?, if_neg h]
  | signal =>
      by_cases h : s.inbox.isSignalled = true
      · simp only [onWake, onWakeWhen, begin?, if_pos h]
        rfl
      · simp only [onWake, onWakeWhen, begin?, if_neg h]
  | trade =>
      simp only [onWake, onWakeWhen, begin?]
      cases s.inbox.take? with
      | none => rfl
      | some found =>
          exact congrArg (· >>= _) (s.reconciler.deliver_eq_deliver_told isKnown .live found.1)

variable {s s' : Service} {told : Trade → Bool} {es : List Event} {wake : Wake}
  {task : Reconciler.Task}

/-- If there is no job to begin there is no task either: the inbox is empty, or the signal is not
there. -/
theorem tasks_of_begin?_eq_none (h : s.begin? wake = none) : s.tasks wake = [] := by
  cases wake with
  | tick =>
      by_cases hopen : s.inbox.isOpen = true
      · simp [begin?, hopen] at h
      · rw [tasks, if_neg hopen]
  | signal =>
      by_cases hsignal : s.inbox.isSignalled = true
      · simp [begin?, hsignal] at h
      · rw [tasks, if_neg hsignal]
  | trade => simp [tasks, taken, Option.map_eq_none_iff.mp h]

/-- The job that is begun is the task, and nothing has happened to the reconciler yet. -/
theorem tasks_of_begin?_eq_some (h : s.begin? wake = some (task, s')) :
    s.tasks wake = [task] ∧ s'.reconciler = s.reconciler := by
  cases wake with
  | tick =>
      by_cases hopen : s.inbox.isOpen = true
      · rw [begin?, if_pos hopen] at h
        obtain ⟨rfl, rfl⟩ := Prod.mk.inj (Option.some.inj h)
        exact ⟨if_pos hopen, rfl⟩
      · simp [begin?, hopen] at h
  | signal =>
      by_cases hsignal : s.inbox.isSignalled = true
      · rw [begin?, if_pos hsignal] at h
        obtain ⟨rfl, rfl⟩ := Prod.mk.inj (Option.some.inj h)
        exact ⟨if_pos hsignal, rfl⟩
      · simp [begin?, hsignal] at h
  | trade =>
      obtain ⟨found, htake, hbegun⟩ := Option.map_eq_some_iff.mp h
      obtain ⟨rfl, rfl⟩ := Prod.mk.inj hbegun
      exact ⟨by simp [tasks, taken, htake], rfl⟩

/-- **A service that wakes up does its tasks**, whatever it is told of the trades, and no others. -/
theorem fulfils_of_onWakeWhen (h : s.onWakeWhen told wake = ⟨es, .ok s'⟩) :
    s.reconciler.Fulfils (s.tasks wake) es s'.reconciler := by
  rw [onWakeWhen] at h
  cases hbegin : s.begin? wake with
  | none =>
      rw [hbegin] at h
      obtain ⟨rfl, rfl⟩ := Journal.pure_eq_ok h
      rw [tasks_of_begin?_eq_none hbegin]
      exact Reconciler.fulfils_nil _
  | some begun =>
      obtain ⟨task, begun⟩ := begun
      rw [hbegin] at h
      obtain ⟨htasks, hreconciler⟩ := tasks_of_begin?_eq_some hbegin
      obtain ⟨a, hperform, rfl⟩ := Journal.map_eq_ok
        (g := fun (a : Bool × Reconciler) => { begun with reconciler := a.2 }) h
      rw [htasks, ← hreconciler]
      exact Reconciler.fulfils_of_performWhen task hperform

end Service

/-! ## The desk -/

/-- What is known after some news, which comes one after another. -/
def KnownOrders.after (known : KnownOrders) (news : List KnownOrders) : KnownOrders :=
  news.getLastD known

/-- What is known after news was known before, or is news. -/
theorem KnownOrders.after_eq_or_mem (known : KnownOrders) (news : List KnownOrders) :
    known.after news = known ∨ known.after news ∈ news := by
  rcases news.eq_nil_or_concat with rfl | ⟨earlier, last, rfl⟩
  · exact .inl rfl
  · right
    simp [after]

/-- A service and the orders that are known to it. -/
structure Desk where
  /-- The service. -/
  service : Service
  /-- The known orders. -/
  known : KnownOrders

/-- What can happen at a desk.  The happenings in whose course several orders are asked for come
with the news that there is meanwhile, and with how much of it there has been when an order is asked
for. -/
inductive Happening where
  /-- An order becomes known. -/
  | added (order : Order)
  /-- There is news about an order. -/
  | updated (order : Order)
  /-- An order is forgotten. -/
  | removed (id : UInt64)
  /-- A trade is handed over as it is made. -/
  | delivered (t : Trade)
  /-- The pending trades are looked at. -/
  | looked (news : List KnownOrders) (moment : Trade → ℕ)
  /-- A history has answered.  The moments are those of the places of its answer, since a trade may
  stand there twice. -/
  | answered (answer : Except QueryError (List Trade)) (news : List KnownOrders) (moment : ℕ → ℕ)
  /-- A trade is put into the inbox, if the inbox takes it. -/
  | queued (t : Trade)
  /-- The signal is given. -/
  | signalled
  /-- The service wakes up. -/
  | awoke (wake : Wake) (news : List KnownOrders) (moment : Trade → ℕ)
  /-- Nobody reads the inbox any more. -/
  | closed

namespace Happening

/-- The pending trades are looked at, and there is no news meanwhile. -/
def rechecked : Happening := .looked [] fun _ => 0

/-- A history has answered, and there is no news while the answer is taken. -/
def recovered (answer : Except QueryError (List Trade)) : Happening :=
  .answered answer [] fun _ => 0

/-- The service wakes up, and there is no news while it does what it woke up for. -/
def woke (wake : Wake) : Happening := .awoke wake [] fun _ => 0

end Happening

namespace Desk

/-- A desk before any trade. -/
def fresh (symbol : String) (terms : Terms) (settings : ServiceSettings) (known : KnownOrders) :
    Desk :=
  ⟨.start (.start symbol terms) settings, known⟩

/-- The desk with another reconciler. -/
def withReconciler (d : Desk) (reconciler : Reconciler) : Desk :=
  { d with service := { d.service with reconciler } }

/-- The desk with another inbox. -/
def withInbox (d : Desk) (inbox : Inbox) : Desk :=
  { d with service := { d.service with inbox } }

/-- Whether the order of a trade is known at a moment when there has been so much of the news. -/
def told (d : Desk) (news : List KnownOrders) (moment : ℕ) (t : Trade) : Bool :=
  (d.known.after (news.take moment)).contains t.orderId

/-- The desk when all the news has come. -/
def learn (d : Desk) (news : List KnownOrders) : Desk := { d with known := d.known.after news }

/-- What a happening does. -/
def next (d : Desk) : Happening → Journal Desk
  | .added order => return { d with known := d.known.add order }
  | .updated order => return { d with known := d.known.update order }
  | .removed id => return { d with known := d.known.remove id }
  | .delivered t => do
    let (_, reconciler) ← d.service.reconciler.deliver d.known.contains .live t
    return d.withReconciler reconciler
  | .looked news moment => do
    let told := fun t => d.told news (moment t) t
    let (_, reconciler) ← d.service.reconciler.recheckWhen told
    return (d.withReconciler reconciler).learn news
  | .answered answer news moment => do
    let told := fun i t => d.told news (moment i) t
    let (_, reconciler) ← d.service.reconciler.recoverWhen told answer
    return (d.withReconciler reconciler).learn news
  | .queued t =>
    match d.service.inbox.put t with
    | .ok inbox => return d.withInbox inbox
    | .error _ => return d
  | .signalled => return d.withInbox d.service.inbox.signal
  | .awoke wake news moment => do
    let told := fun t => d.told news (moment t) t
    let service ← d.service.onWakeWhen told wake
    return { d with service }.learn news
  | .closed => return { d with service := d.service.close }

/-! ### Without news

If nothing becomes known meanwhile, the desk does what the reconciler and the service do that ask
one and the same store. -/

/-- A look without news is a look at what is known when it begins. -/
theorem next_rechecked (d : Desk) :
    d.next .rechecked = d.service.reconciler.recheck d.known.contains >>= fun a =>
      pure (d.withReconciler a.2) :=
  rfl

/-- A recovery without news goes by what is known when it begins. -/
theorem next_recovered (d : Desk) (answer : Except QueryError (List Trade)) :
    d.next (.recovered answer) = d.service.reconciler.recover d.known.contains answer >>= fun a =>
      pure (d.withReconciler a.2) := by
  rw [Reconciler.recover_eq_recoverWhen]
  rfl

/-- A service that wakes up without news does what a service does when it wakes up. -/
theorem next_woke (d : Desk) (wake : Wake) :
    d.next (.woke wake) = d.service.onWake d.known.contains wake >>= fun service =>
      pure { d with service } := by
  rw [Service.onWake_eq_onWakeWhen]
  rfl

/-! ### What a happening comes to -/

/-- The trades that a happening hands to the reconciler. -/
def handed (d : Desk) : Happening → List Trade
  | .delivered t => [t]
  | .answered answer _ _ => answer.toOption.getD []
  | .awoke wake _ _ => d.service.taken wake
  | _ => []

/-- What a happening asks the reconciler to do. -/
def tasks (d : Desk) : Happening → List Reconciler.Task
  | .delivered t => [.take .live t]
  | .looked _ _ => [.look]
  | .answered answer _ _ => (answer.toOption.getD []).map (.take .recovered)
  | .awoke wake _ _ => d.service.tasks wake
  | _ => []

/-- A happening hands over the trades of its tasks, so what is handed over can be read off them. -/
theorem handed_tasks (d : Desk) (happening : Happening) :
    (d.tasks happening).flatMap Reconciler.Task.handed = d.handed happening := by
  cases happening with
  | answered answer news moment =>
      rw [tasks, List.flatMap_map]
      exact List.flatMap_singleton' _
  | awoke wake news moment => exact d.service.handed_tasks wake
  | _ => rfl

/-- **What happens is that the tasks are done.**  News that comes in the course of a happening
changes what is told of the trades, and what the desk knows of orders; no task is about it. -/
theorem fulfils_of_next {d d' : Desk} {happening : Happening} {es : List Event}
    (h : d.next happening = ⟨es, .ok d'⟩) :
    d.service.reconciler.Fulfils (d.tasks happening) es d'.service.reconciler := by
  -- Where the reconciler has no part in it, nothing is handed over or announced.
  have hidle : ∀ {d'' : Desk}, (pure d'' : Journal Desk) = ⟨es, .ok d'⟩ →
      d''.service.reconciler = d.service.reconciler →
      d.service.reconciler.Fulfils [] es d'.service.reconciler := by
    intro d'' hpure hsame
    obtain ⟨rfl, rfl⟩ := Journal.pure_eq_ok hpure
    rw [hsame]
    exact Reconciler.fulfils_nil _
  cases happening with
  | added order => exact hidle h rfl
  | updated order => exact hidle h rfl
  | removed id => exact hidle h rfl
  | signalled => exact hidle h rfl
  | closed => exact hidle h rfl
  | queued t =>
      simp only [next] at h
      split at h
      · exact hidle h rfl
      · exact hidle h rfl
  | delivered t =>
      obtain ⟨a, hdeliver, rfl⟩ := Journal.map_eq_ok
        (g := fun (a : Bool × Reconciler) => d.withReconciler a.2) h
      exact Reconciler.fulfils_of_deliver hdeliver
  | looked news moment =>
      obtain ⟨a, hrecheck, rfl⟩ := Journal.map_eq_ok
        (g := fun (a : Bool × Reconciler) => (d.withReconciler a.2).learn news) h
      exact Reconciler.fulfils_of_performWhen .look hrecheck
  | answered answer news moment =>
      obtain ⟨a, hrecover, rfl⟩ := Journal.map_eq_ok
        (g := fun (a : Except QueryError Nat × Reconciler) =>
          (d.withReconciler a.2).learn news) h
      exact Reconciler.fulfils_of_recoverWhen hrecover
  | awoke wake news moment =>
      obtain ⟨service, hwake, rfl⟩ := Journal.map_eq_ok
        (g := fun service => { d with service }.learn news) h
      exact Service.fulfils_of_onWakeWhen hwake

end Desk

/-! ## Chronicles -/

/-- What has happened at a desk so far. -/
structure Chronicle where
  /-- The desk as it is now. -/
  desk : Desk
  /-- The trades that were handed to the reconciler. -/
  handed : List Trade
  /-- The events that were announced. -/
  log : List Event

namespace Chronicle

/-- Nothing has happened yet. -/
def opening (desk : Desk) : Chronicle := ⟨desk, [], []⟩

/-- The reconciler as it is now. -/
def reconciler (c : Chronicle) : Reconciler := c.desk.service.reconciler

/-- One more happening. -/
def next (c : Chronicle) (happening : Happening) : Except Fault Chronicle :=
  let work := c.desk.next happening
  work.result.map fun desk => ⟨desk, c.handed ++ c.desk.handed happening, c.log ++ work.events⟩

/-- One happening after another. -/
def run (c : Chronicle) (happenings : List Happening) : Except Fault Chronicle :=
  happenings.foldlM next c

/-- **One more happening** adds what its tasks hand over and announce. -/
theorem fulfils_of_next {c c' : Chronicle} {happening : Happening}
    (h : c.next happening = .ok c') :
    ∃ es, c.reconciler.Fulfils (c.desk.tasks happening) es c'.reconciler ∧
      c'.handed = c.handed ++ c.desk.handed happening ∧ c'.log = c.log ++ es := by
  obtain ⟨d, hd, rfl⟩ := map_eq_ok.mp h
  refine ⟨(c.desk.next happening).events, Desk.fulfils_of_next ?_, rfl, rfl⟩
  rw [← hd]

/-- A run goes on from where it is by doing tasks.  The induction is on the happenings, from any
chronicle. -/
theorem fulfils_of_run (happenings : List Happening) : ∀ {c c' : Chronicle},
    c.run happenings = .ok c' →
      ∃ tasks es, c.reconciler.Fulfils tasks es c'.reconciler ∧
        c'.handed = c.handed ++ tasks.flatMap Reconciler.Task.handed ∧ c'.log = c.log ++ es := by
  induction happenings with
  | nil =>
      intro c c' h
      obtain rfl := Except.ok.inj h
      exact ⟨[], [], Reconciler.fulfils_nil _, (List.append_nil _).symm, (List.append_nil _).symm⟩
  | cons happening happenings ih =>
      intro c c' h
      rw [run, List.foldlM_cons] at h
      obtain ⟨c'', hone, hrest⟩ := bind_eq_ok.mp h
      obtain ⟨es, hfulfils, hhanded, hlog⟩ := fulfils_of_next hone
      obtain ⟨tasks, fs, hfulfils', hhanded', hlog'⟩ := ih hrest
      refine ⟨_, es ++ fs, hfulfils.trans hfulfils', ?_, ?_⟩
      · rw [hhanded', hhanded, ← Desk.handed_tasks, List.flatMap_append, List.append_assoc]
      · rw [hlog', hlog, List.append_assoc]

/-- A run goes on from where it is by small steps. -/
theorem steps_of_run (happenings : List Happening) {c c' : Chronicle}
    (h : c.run happenings = .ok c') :
    ∃ handed log, c.reconciler.Steps handed log c'.reconciler ∧
      c'.handed = c.handed ++ handed ∧ c'.log = c.log ++ log := by
  obtain ⟨tasks, es, hfulfils, hhanded, hlog⟩ := fulfils_of_run happenings h
  exact ⟨_, es, hfulfils.steps, hhanded, hlog⟩

/-- **A run from a fresh desk is made of deeds**, which are in the chronicle. -/
theorem deeds_of_run_fresh {symbol : String} {terms : Terms} {settings : ServiceSettings}
    {known : KnownOrders} {happenings : List Happening} {c : Chronicle}
    (h : (opening (.fresh symbol terms settings known)).run happenings = .ok c) :
    ∃ deeds, (Reconciler.start symbol terms).Deeds deeds c.reconciler ∧
      c.handed = Reconciler.handedIn deeds ∧ c.log = Reconciler.announcedIn deeds := by
  obtain ⟨tasks, es, ⟨deeds, hdeeds, rfl, rfl⟩, hhanded, hlog⟩ := fulfils_of_run happenings h
  rw [← Reconciler.handedIn_eq_flatMap] at hhanded
  exact ⟨deeds, hdeeds, hhanded, hlog⟩

/-- **A run from a fresh desk is made of small steps**, whose labels are in the chronicle. -/
theorem steps_of_run_fresh {symbol : String} {terms : Terms} {settings : ServiceSettings}
    {known : KnownOrders} {happenings : List Happening} {c : Chronicle}
    (h : (opening (.fresh symbol terms settings known)).run happenings = .ok c) :
    (Reconciler.start symbol terms).Steps c.handed c.log c.reconciler := by
  obtain ⟨handed, log, hsteps, hhanded, hlog⟩ := steps_of_run happenings h
  rw [hhanded, hlog]
  exact hsteps

end Chronicle

/-! ### A sample run -/

/-- An order of the sample market. -/
def sampleOrder (id : UInt64) : Order where
  id
  symbol := "BTCUSDT"
  side := .buy
  quantity := .one
  price := .ofInt64 100
  status := .filled

/-- Nothing has happened at a desk of the sample market, and no order is known. -/
def sampleOpening : Chronicle :=
  .opening (.fresh "BTCUSDT" sampleTerms .standard (.empty true))

/-- The first trade is pending when another one with its key comes and is applied.  The second one
comes in the inbox, again from the history, and is applied when the signal is heeded; then its
order is forgotten.  The third one stays pending, and one of another symbol is ignored. -/
def sampleDay : List Happening := [
  .delivered (sampleTrade 1 .buy 100 1 1),
  .queued (sampleTrade 2 .sell 103 1 1),
  .added (sampleOrder 1),
  .delivered (sampleTrade 1 .buy 101 2 1),
  .rechecked,
  .woke .trade,
  .recovered (.ok [sampleTrade 1 .buy 100 1 1, sampleTrade 2 .sell 103 1 1,
    sampleTrade 3 .sell 99 3 1, { sampleTrade 4 .buy 1 1 0 with symbol := "ETHUSDT" }]),
  .added (sampleOrder 2),
  .signalled,
  .woke .signal,
  .removed 2,
  .woke .tick]

end CostBasis
