import CostBasis.Proofs.Reconciler.Step
import CostBasis.Reconciler.Recovery

/-!
# Tasks

A reconciler is only ever asked for two things: to take a trade, and to look at the pending trades.
The answer of a history is taken trade by trade.  A deed is a task together with what came of it:
whether a trade was applied, and what was announced.

Others find out about orders while a reconciler is at work, so it may be told one thing about the
first trade that it asks for and another about the next one.  Whatever asks more than once is
therefore told of each trade by itself whether its order is known; that what is known does not
change meanwhile is a case of this.

Deeds are coarser than small steps.  In the middle of a task a reconciler may be in a state that
nobody ever sees; a pending trade, for one, is booked before it is forgotten.  What is true between
the tasks only is proved along deeds.

Main statements: `deliverAll_cons`, `fulfils_of_recoverWhen`, `Deeds.steps`.
-/

namespace CostBasis

namespace Reconciler

variable {r s s' : Reconciler} {isKnown : UInt64 → Bool} {told : Trade → Bool}
  {origin : Origin} {t : Trade} {es : List Event} {isNew : Bool}

/-! ## Trades one after another -/

/-- To take a trade it matters of its own order only whether it is known. -/
theorem deliver_eq_deliver_told (r : Reconciler) (isKnown : UInt64 → Bool) (origin : Origin)
    (t : Trade) :
    r.deliver isKnown origin t = r.deliver (fun _ => isKnown t.orderId) origin t := rfl

/-- Takes one more trade, and counts it if it was applied. -/
def tally (isKnown : UInt64 → Bool) (origin : Origin) (counted : Nat × Reconciler) (t : Trade) :
    Journal (Nat × Reconciler) :=
  counted.2.deliver isKnown origin t >>= fun a =>
    pure (if a.1 then counted.1 + 1 else counted.1, a.2)

/-- What was counted before is added to the count.  The induction is on the trades, for any count to
start from. -/
theorem foldlM_tally_add (k : Nat) (ts : List Trade) : ∀ (n : Nat) (r : Reconciler),
    ts.foldlM (tally isKnown origin) (k + n, r) =
      ts.foldlM (tally isKnown origin) (n, r) >>= fun a => pure (k + a.1, a.2) := by
  induction ts with
  | nil =>
      intro n r
      rw [List.foldlM_nil, List.foldlM_nil, pure_bind]
  | cons t ts ih =>
      intro n r
      rw [List.foldlM_cons, List.foldlM_cons, bind_assoc, tally, tally, bind_assoc, bind_assoc]
      refine bind_congr fun a => ?_
      rw [pure_bind, pure_bind, ← ih]
      cases a.1 <;> rfl

/-- Where there is no trade to take, none is applied. -/
@[simp] theorem deliverAll_nil (r : Reconciler) :
    r.deliverAll isKnown origin [] = pure (0, r) := rfl

/-- Taking a trade and then the others, whose counts add up. -/
theorem deliverAll_cons (r : Reconciler) (t : Trade) (ts : List Trade) :
    r.deliverAll isKnown origin (t :: ts) = r.deliver isKnown origin t >>= fun a =>
      a.2.deliverAll isKnown origin ts >>= fun b => pure (a.1.toNat + b.1, b.2) := by
  show (t :: ts).foldlM (tally isKnown origin) (0, r) = _
  rw [List.foldlM_cons, tally, bind_assoc]
  refine bind_congr fun a => ?_
  rw [pure_bind]
  show ts.foldlM (tally isKnown origin) _ = _
  rw [show (if a.1 = true then 0 + 1 else 0) = a.1.toNat + 0 by cases a.1 <;> rfl, foldlM_tally_add]
  rfl

/-- Taking several trades has a result if taking the first one has, and taking the others from
there.  The events come one after the other, and the counts are added. -/
theorem deliverAll_cons_eq_ok {ts : List Trade} {n : Nat}
    (h : r.deliverAll isKnown origin (t :: ts) = ⟨es, .ok (n, s)⟩) :
    ∃ first isNew q rest k, r.deliver isKnown origin t = ⟨first, .ok (isNew, q)⟩ ∧
      q.deliverAll isKnown origin ts = ⟨rest, .ok (k, s)⟩ ∧ es = first ++ rest ∧
        n = isNew.toNat + k := by
  rw [deliverAll_cons] at h
  obtain ⟨first, ⟨isNew, q⟩, rest, hone, hmore, rfl⟩ := Journal.bind_eq_ok.mp h
  obtain ⟨⟨k, s'⟩, hrest, hcount⟩ := Journal.map_eq_ok
    (g := fun (b : Nat × Reconciler) => (isNew.toNat + b.1, b.2)) hmore
  obtain ⟨rfl, rfl⟩ := Prod.mk.inj hcount
  exact ⟨first, isNew, q, rest, k, hone, hrest, rfl, rfl⟩

/-- Taking some trades and then others, whose counts add up.  The induction is on the first ones. -/
theorem deliverAll_append (ts us : List Trade) : ∀ r : Reconciler,
    r.deliverAll isKnown origin (ts ++ us) = r.deliverAll isKnown origin ts >>= fun a =>
      a.2.deliverAll isKnown origin us >>= fun b => pure (a.1 + b.1, b.2) := by
  induction ts with
  | nil =>
      intro r
      simp only [List.nil_append, deliverAll_nil, pure_bind, Nat.zero_add]
      exact (bind_pure _).symm
  | cons t ts ih =>
      intro r
      rw [List.cons_append, deliverAll_cons, deliverAll_cons]
      simp only [bind_assoc, pure_bind, ih, Nat.add_assoc]

/-! ### Trades that are asked about one by one -/

/-- Takes trades one after another, told of each of them whether its order is known, and counts
those that were applied. -/
def deliverAllWhen (r : Reconciler) (origin : Origin) :
    List (Trade × Bool) → Journal (Nat × Reconciler)
  | [] => return (0, r)
  | (t, isKnown) :: rest => do
    let (isNew, r) ← r.deliver (fun _ => isKnown) origin t
    let (n, r) ← r.deliverAllWhen origin rest
    return (isNew.toNat + n, r)

/-- If what is known does not change, it is told of each trade.  So taking trades is a case of
taking them while things become known. -/
theorem deliverAll_eq_deliverAllWhen (ts : List Trade) : ∀ r : Reconciler,
    r.deliverAll isKnown origin ts =
      r.deliverAllWhen origin (ts.map fun t => (t, isKnown t.orderId)) := by
  induction ts with
  | nil =>
      intro r
      rfl
  | cons t ts ih =>
      intro r
      rw [deliverAll_cons, List.map_cons, deliverAllWhen, deliver_eq_deliver_told]
      exact bind_congr fun a => by rw [ih]

/-- Takes the trades that a history has answered with, told of each of them, by its place in the
answer, whether its order is known. -/
def recoverWhen (r : Reconciler) (told : ℕ → Trade → Bool)
    (answer : Except QueryError (List Trade)) : Journal (Except QueryError Nat × Reconciler) :=
  match answer with
  | .error e => return (.error e, r)
  | .ok ts => do
    let (n, r) ← r.deliverAllWhen .recovered (ts.mapIdx fun i t => (t, told i t))
    return (.ok n, r)

/-- A recovery in whose course nothing becomes known or is forgotten is told of each trade what was
known before. -/
theorem recover_eq_recoverWhen (r : Reconciler) (isKnown : UInt64 → Bool)
    (answer : Except QueryError (List Trade)) :
    r.recover isKnown answer = r.recoverWhen (fun _ t => isKnown t.orderId) answer := by
  cases answer with
  | error e => rfl
  | ok ts =>
      have hplaces : (ts.mapIdx fun _ t => (t, isKnown t.orderId)) =
          ts.map fun t => (t, isKnown t.orderId) := List.ext_getElem (by simp) (by simp)
      rw [recover, recoverWhen, deliverAll_eq_deliverAllWhen, hplaces]

/-! ## Tasks and deeds -/

/-- A thing that a reconciler is asked to do. -/
inductive Task where
  /-- To take a trade. -/
  | take (origin : Origin) (t : Trade)
  /-- To look at the pending trades. -/
  | look

/-- The trades that a task hands over. -/
def Task.handed : Task → List Trade
  | .take _ t => [t]
  | .look => []

/-- Does what it is asked to do, told of each trade whether its order is known.  The result says
whether a trade was applied. -/
def performWhen (r : Reconciler) (told : Trade → Bool) : Task → Journal (Bool × Reconciler)
  | .take origin t => r.deliver (fun _ => told t) origin t
  | .look => r.recheckWhen told

/-- A task, and what came of it. -/
structure Deed where
  /-- The task. -/
  task : Task
  /-- Whether a trade was applied. -/
  isNew : Bool
  /-- What was announced. -/
  events : List Event

/-- The trades that were handed over in deeds. -/
def handedIn (deeds : List Deed) : List Trade := deeds.flatMap fun d => d.task.handed

/-- What was announced in deeds. -/
def announcedIn (deeds : List Deed) : List Event := deeds.flatMap Deed.events

/-- Deeds one after another.  What is known about orders may change from one to the next, and also
in the middle of a look. -/
inductive Deeds (r : Reconciler) : List Deed → Reconciler → Prop
  | none : Deeds r [] r
  | snoc {deeds : List Deed} {s s' : Reconciler} (told : Trade → Bool) (task : Task)
      (isNew : Bool) (es : List Event) :
      Deeds r deeds s → s.performWhen told task = ⟨es, .ok (isNew, s')⟩ →
        Deeds r (deeds ++ [⟨task, isNew, es⟩]) s'

/-- Deeds hand over part by part. -/
@[simp] theorem handedIn_append (deeds more : List Deed) :
    handedIn (deeds ++ more) = handedIn deeds ++ handedIn more :=
  List.flatMap_append

/-- Deeds announce part by part. -/
@[simp] theorem announcedIn_append (deeds more : List Deed) :
    announcedIn (deeds ++ more) = announcedIn deeds ++ announcedIn more :=
  List.flatMap_append

/-- One deed hands over what its task does. -/
@[simp] theorem handedIn_singleton (d : Deed) : handedIn [d] = d.task.handed :=
  List.flatMap_singleton ..

/-- One deed announces its events. -/
@[simp] theorem announcedIn_singleton (d : Deed) : announcedIn [d] = d.events :=
  List.flatMap_singleton ..

/-- A task that is done is one deed. -/
theorem deeds_of_performWhen {task : Task} (h : r.performWhen told task = ⟨es, .ok (isNew, s)⟩) :
    Deeds r [⟨task, isNew, es⟩] s :=
  Deeds.none.snoc told task isNew es h

/-- Deeds may be followed by others.  The induction is on those behind. -/
theorem Deeds.trans {deeds more : List Deed} (h : Deeds r deeds s) (h' : Deeds s more s') :
    Deeds r (deeds ++ more) s' := by
  induction h' with
  | none =>
      rw [List.append_nil]
      exact h
  | snoc told task isNew es _ hperform ih =>
      rw [← List.append_assoc]
      exact ih.snoc told task isNew es hperform

/-- A task is made of small steps, whatever is told of the trades in its course. -/
theorem steps_of_performWhen {task : Task} (h : r.performWhen told task = ⟨es, .ok (isNew, s)⟩) :
    Steps r task.handed es s := by
  cases task with
  | take origin t =>
      rw [performWhen] at h
      exact steps_of_deliver h
  | look =>
      rw [performWhen] at h
      exact (steps_of_recheckWhen h).1

/-- **Deeds are made of small steps**, with what they hand over and announce for labels. -/
theorem Deeds.steps {deeds : List Deed} (h : Deeds r deeds s) :
    Steps r (handedIn deeds) (announcedIn deeds) s := by
  induction h with
  | none => exact .none
  | snoc told task isNew es _ hperform ih =>
      rw [handedIn_append, announcedIn_append, handedIn_singleton, announcedIn_singleton]
      exact ih.trans (steps_of_performWhen hperform)

/-- The trades that are handed over follow from the tasks. -/
theorem handedIn_eq_flatMap (deeds : List Deed) :
    handedIn deeds = (deeds.map Deed.task).flatMap Task.handed :=
  (List.flatMap_map ..).symm

/-- These tasks are done, in deeds that announce these events. -/
def Fulfils (r : Reconciler) (tasks : List Task) (es : List Event) (s : Reconciler) : Prop :=
  ∃ deeds, Deeds r deeds s ∧ deeds.map Deed.task = tasks ∧ announcedIn deeds = es

/-- Where there is no task nothing is announced. -/
theorem fulfils_nil (r : Reconciler) : Fulfils r [] [] r := ⟨[], .none, rfl, rfl⟩

/-- To do one task is to fulfil it. -/
theorem fulfils_of_performWhen (task : Task)
    (h : r.performWhen told task = ⟨es, .ok (isNew, s)⟩) : Fulfils r [task] es s :=
  ⟨_, deeds_of_performWhen h, rfl, announcedIn_singleton _⟩

/-- To take a trade is a task, whatever else is known than its order. -/
theorem fulfils_of_deliver (h : r.deliver isKnown origin t = ⟨es, .ok (isNew, s)⟩) :
    Fulfils r [.take origin t] es s := by
  have hperform : r.performWhen (fun t => isKnown t.orderId) (.take origin t) =
      ⟨es, .ok (isNew, s)⟩ := h
  exact fulfils_of_performWhen (.take origin t) hperform

/-- Tasks may be followed by others. -/
theorem Fulfils.trans {tasks more : List Task} {fs : List Event} (h : Fulfils r tasks es s)
    (h' : Fulfils s more fs s') : Fulfils r (tasks ++ more) (es ++ fs) s' := by
  obtain ⟨deeds, hdeeds, rfl, rfl⟩ := h
  obtain ⟨deeds', hdeeds', rfl, rfl⟩ := h'
  exact ⟨deeds ++ deeds', hdeeds.trans hdeeds', List.map_append, announcedIn_append ..⟩

/-- Tasks that are fulfilled are made of small steps. -/
theorem Fulfils.steps {tasks : List Task} (h : Fulfils r tasks es s) :
    Steps r (tasks.flatMap Task.handed) es s := by
  obtain ⟨deeds, hdeeds, rfl, rfl⟩ := h
  rw [← handedIn_eq_flatMap]
  exact hdeeds.steps

/-- **Trades one after another are one task each**, whatever is told of them.  The induction is on
the trades. -/
theorem fulfils_of_deliverAllWhen (asked : List (Trade × Bool)) :
    ∀ {r : Reconciler} {es : List Event} {n : Nat},
      r.deliverAllWhen origin asked = ⟨es, .ok (n, s)⟩ →
        Fulfils r (asked.map fun a => .take origin a.1) es s := by
  induction asked with
  | nil =>
      intro r es n h
      obtain ⟨rfl, hs⟩ := Journal.pure_eq_ok h
      obtain rfl := congrArg Prod.snd hs
      exact fulfils_nil r
  | cons a rest ih =>
      intro r es n h
      obtain ⟨t, isKnown⟩ := a
      rw [deliverAllWhen] at h
      obtain ⟨first, ⟨isNew, q⟩, others, hone, hmore, rfl⟩ := Journal.bind_eq_ok.mp h
      obtain ⟨⟨k, s'⟩, hrest, hcount⟩ := Journal.map_eq_ok
        (g := fun (b : Nat × Reconciler) => (isNew.toNat + b.1, b.2)) hmore
      obtain rfl := congrArg Prod.snd hcount
      exact (fulfils_of_deliver hone).trans (ih hrest)

/-- The answer of a history is taken trade by trade.  An error hands over nothing.
Source: `recover`, which ends with the error. -/
theorem fulfils_of_recoverWhen {told : ℕ → Trade → Bool}
    {answer : Except QueryError (List Trade)} {count : Except QueryError Nat}
    (h : r.recoverWhen told answer = ⟨es, .ok (count, s)⟩) :
    Fulfils r ((answer.toOption.getD []).map (.take .recovered)) es s := by
  cases answer with
  | error e =>
      obtain ⟨rfl, hs⟩ := Journal.pure_eq_ok h
      obtain rfl := congrArg Prod.snd hs
      exact fulfils_nil r
  | ok ts =>
      obtain ⟨a, hall, ha⟩ := Journal.map_eq_ok
        (g := fun (a : Nat × Reconciler) => (Except.ok a.1, a.2)) h
      obtain rfl := congrArg Prod.snd ha
      have htasks := fulfils_of_deliverAllWhen _ hall
      -- What is told of the trades is no part of the tasks.
      have hplaces : ((ts.mapIdx fun i t => (t, told i t)).map fun a => Task.take .recovered a.1) =
          ts.map (.take .recovered) := List.ext_getElem (by simp) (by simp)
      rw [hplaces] at htasks
      exact htasks

end Reconciler

end CostBasis
