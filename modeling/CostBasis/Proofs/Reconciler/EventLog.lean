import CostBasis.Proofs.Reconciler.Books

/-!
# What the log tells

The log of a reconciler tells the whole story of its position.  Whoever applies the trades that it
reports, one after another, to a flat position gets the position of the reconciler, meets on the way
every gain that the log reports, right behind its trade, and finds the position as it is announced
each time.  The gains add up to the profits, by the same rounded sums.

`Narrates` says this of a stretch of log between two positions.  A small step narrates, so every run
does.  How often the position is announced is a matter of tasks: once, at the end of each that has
applied a trade.  A recovery is one task for each of its trades.

Main statement: `log_reproduces_ledger`.
-/

namespace CostBasis

/-! ## Those who hear of everything -/

namespace Subscribers

variable {α : Type} (s : Subscribers α)

/-- Hearing of an event does not change what a subscriber wants to hear of, so it hears of the next
one as well. -/
@[simp] theorem count_after (e : Event) (kind : EventKind) :
    (s.after e).count kind = s.count kind := by
  have hkind : ∀ one : Subscriber α, (one.after e).kind = one.kind := by
    intro one
    unfold Subscriber.after
    split <;> rfl
  unfold count after
  rw [List.filter_map, List.length_map]
  simp only [Function.comp_def, hkind]

/-- As many are called as want to hear of the event.
Source: `emit` of `EventRegistry`. -/
theorem map_event_calls (e : Event) :
    (s.calls e).map Call.event = List.replicate (s.count e.kind) e := by
  unfold calls count
  rw [List.map_map]
  exact List.map_const' ..

/-- If each kind has one subscriber, then together they are told the log, in its order: each event
is heard once. -/
theorem map_event_tellAll (log : List Event) : ∀ s : Subscribers α,
    (∀ kind, s.count kind = 1) → (s.tellAll log).1.map Call.event = log := by
  induction log with
  | nil =>
      intro s _
      rfl
  | cons e es ih =>
      intro s hone
      show (s.calls e ++ ((s.after e).tellAll es).1).map Call.event = _
      rw [List.map_append, map_event_calls, hone, ih _ fun kind => by rw [count_after, hone]]
      rfl

end Subscribers

/-! ## Gains in a log -/

/-- The gain that an event reports, and the trade that has earned it. -/
def Event.gain? : Event → Option (Trade × Gain)
  | .gain t g => some (t, g)
  | .trade _ | .recovery _ | .position _ => none

/-- The gains that a log reports, in its order. -/
def gainsIn (log : List Event) : List Gain := (log.filterMap Event.gain?).map Prod.snd

/-- A log reports gains part by part. -/
@[simp] theorem gainsIn_append (es fs : List Event) :
    gainsIn (es ++ fs) = gainsIn es ++ gainsIn fs := by
  unfold gainsIn
  rw [List.filterMap_append, List.map_append]

/-- The announcements of a trade report its gain, if there is one. -/
@[simp] theorem gainsIn_announcements (origin : Origin) (t : Trade) (gain? : Option Gain) :
    gainsIn (Reconciler.announcements origin t gain?) = gain?.toList := by
  cases origin <;> cases gain? <;> rfl

/-! ## Narration -/

open Reconciler (announcements)

/-- The log tells how one position became another: by trades, each with what it earned right behind
it, and with the position announced now and then. -/
inductive Narrates (terms : Terms) : Position → List Event → Position → Prop
  | nothing (p : Position) : Narrates terms p [] p
  | applied {p q r : Position} {es : List Event} (origin : Origin) (t : Trade)
      (gain? : Option Gain) (apply : p.apply terms t = .ok (gain?, q))
      (rest : Narrates terms q es r) :
      Narrates terms p (announcements origin t gain? ++ es) r
  | position {p q : Position} {es : List Event} (rest : Narrates terms p es q) :
      Narrates terms p (.position (p.snapshot terms.market.symbol) :: es) q

section narration

variable {terms : Terms} {p q r : Position} {es fs : List Event}

/-- A narration may be followed by another one from where it has led. -/
theorem Narrates.trans (h : Narrates terms p es q) (h' : Narrates terms q fs r) :
    Narrates terms p (es ++ fs) r := by
  induction h with
  | nothing => exact h'
  | applied origin t gain? apply _ ih =>
      rw [List.append_assoc]
      exact .applied origin t gain? apply (ih h')
  | position _ ih => exact .position (ih h')

/-- **A small step narrates what it does.**  Of the six steps only those that book a trade or
announce the position have something to tell. -/
theorem Reconciler.Step.narrates {r s : Reconciler} {handed : List Trade}
    (h : r.Step handed es s) : Narrates r.terms r.position es s.position := by
  cases h with
  | ignored t h => exact .nothing _
  | kept t fresh sound => exact .nothing _
  | forgotten leaves h => exact .nothing _
  | announced => exact .position (.nothing _)
  | booked origin t gain? position fresh sound apply =>
      rw [← List.append_nil (announcements origin t gain?)]
      exact .applied origin t gain? apply (.nothing _)
  | released t gain? position fresh pending apply =>
      rw [← List.append_nil (announcements .live t gain?)]
      exact .applied .live t gain? apply (.nothing _)

/-- Small steps narrate what they do.  The induction adds one step at the end, and nothing changes
the symbol or the terms. -/
theorem Reconciler.Steps.narrates {r s : Reconciler} {handed : List Trade}
    (h : r.Steps handed es s) : Narrates r.terms r.position es s.position := by
  induction h with
  | none => exact .nothing _
  | snoc hsteps hstep ih =>
      have hnarrates := hstep.narrates
      rw [hsteps.unchanged.2] at hnarrates
      exact ih.trans hnarrates

/-! ### What narration comes to -/

/-- What a trade earns is added to a total that grows with the gains.  Both profits are such totals,
with the same rounded sums as in the position. -/
theorem Narrates.sum_gains {part : Gain → Decimal} {total : Position → Decimal}
    (hearns : ∀ {p q : Position} {gain? : Option Gain}, p.Earns gain? q →
      (gain?.toList.map part).foldlM Decimal.add (total p) = .ok (total q))
    (h : Narrates terms p es q) :
    ((gainsIn es).map part).foldlM Decimal.add (total p) = .ok (total q) := by
  induction h with
  | nothing => rfl
  | applied origin t gain? apply _ ih =>
      rw [gainsIn_append, gainsIn_announcements, List.map_append, List.foldlM_append,
        hearns (Position.earns_of_apply apply), ok_bind, ih]
  | position _ ih => exact ih

/-- The gross gains of a log add up to the gross profit. -/
theorem Narrates.grossProfit (h : Narrates terms p es q) :
    ((gainsIn es).map Gain.gross).foldlM Decimal.add p.grossProfit = .ok q.grossProfit := by
  refine h.sum_gains fun {p q gain?} hearns => ?_
  cases gain? with
  | none => exact congrArg Except.ok hearns.1.symm
  | some gain => simpa using hearns.1

/-- The net gains of a log add up to the net profit. -/
theorem Narrates.netProfit (h : Narrates terms p es q) :
    ((gainsIn es).map Gain.net).foldlM Decimal.add p.netProfit = .ok q.netProfit := by
  refine h.sum_gains fun {p q gain?} hearns => ?_
  cases gain? with
  | none => exact congrArg Except.ok hearns.2.symm
  | some gain => simpa using hearns.2

/-- A log that tells of trades from a position does not begin with a gain. -/
theorem Narrates.head_not_gain (h : Narrates terms p es q) : es.head?.bind Event.gain? = none := by
  cases h with
  | nothing => rfl
  | applied origin t gain? apply rest => cases origin <;> cases gain? <;> rfl
  | position rest => rfl

/-- How an event fits into a log that starts from a position.  A trade stands where applying it has
a result, with what it earns, if anything, right behind it.  A gain stands behind its trade.  The
position is announced as it is after the trades before. -/
def Event.Fits (terms : Terms) (p : Position) (before after : List Event) : Event → Prop
  | .trade t | .recovery t =>
    ∃ now gain? next, p.afterAll terms (appliedIn before) = .ok now ∧
      now.apply terms t = .ok (gain?, next) ∧
        after.head?.bind Event.gain? = gain?.map fun gain => (t, gain)
  | .gain t _ => before.getLast?.bind Event.applied? = some t
  | .position s =>
    ∃ now, p.afterAll terms (appliedIn before) = .ok now ∧ s = now.snapshot terms.market.symbol

/-- An event fits into a longer log if it fits behind its beginning.  The trades of the beginning
lead to where the event is looked at from. -/
theorem Event.Fits.prepend {e : Event} {block before after : List Event}
    (hblock : p.afterAll terms (appliedIn block) = .ok q) (h : e.Fits terms q before after) :
    e.Fits terms p (block ++ before) after := by
  have happend : p.afterAll terms (appliedIn (block ++ before)) =
      q.afterAll terms (appliedIn before) := by
    rw [appliedIn_append, Position.afterAll, List.foldlM_append]
    exact congrArg (· >>= _) hblock
  cases e with
  | trade t =>
      unfold Fits at h ⊢
      rwa [happend]
  | recovery t =>
      unfold Fits at h ⊢
      rwa [happend]
  | position s =>
      unfold Fits at h ⊢
      rwa [happend]
  | gain t gain =>
      obtain ⟨last, hlast, happlied⟩ := Option.bind_eq_some_iff.mp h
      show (block ++ before).getLast?.bind _ = _
      rw [List.getLast?_append, hlast]
      exact happlied

/-- **Every event of a narration fits.**  The induction is on the narration; an event of a later
part fits behind the trades of the earlier ones. -/
theorem Narrates.fits (h : Narrates terms p es q) : ∀ {before after : List Event} {e : Event},
    es = before ++ e :: after → e.Fits terms p before after := by
  induction h with
  | nothing =>
      intro before after e hes
      simp at hes
  | @position p q es rest ih =>
      intro before after e hes
      have hafter : p.afterAll terms (appliedIn [.position (p.snapshot terms.market.symbol)]) =
          .ok p := rfl
      rcases before with _ | ⟨first, before⟩
      · obtain ⟨rfl, -⟩ := List.cons.inj hes
        exact ⟨p, rfl, rfl⟩
      · obtain ⟨rfl, htail⟩ := List.cons.inj hes
        exact (ih htail).prepend hafter
  | @applied p q r es origin t gain? apply rest ih =>
      intro before after e hes
      have hafter : p.afterAll terms (appliedIn (announcements origin t gain?)) = .ok q := by
        rw [Reconciler.appliedIn_announcements, ← List.nil_append [t]]
        exact Position.afterAll_append_singleton rfl apply
      cases gain? with
      | none =>
          rcases before with _ | ⟨first, before⟩
          · obtain ⟨rfl, rfl⟩ := List.cons.inj hes
            cases origin <;> exact ⟨p, none, q, rfl, apply, rest.head_not_gain⟩
          · obtain ⟨rfl, htail⟩ := List.cons.inj hes
            exact (ih htail).prepend hafter
      | some gain =>
          rcases before with _ | ⟨first, _ | ⟨second, before⟩⟩
          · obtain ⟨rfl, rfl⟩ := List.cons.inj hes
            cases origin <;> exact ⟨p, some gain, q, rfl, apply, rfl⟩
          · obtain ⟨rfl, htail⟩ := List.cons.inj hes
            obtain ⟨rfl, -⟩ := List.cons.inj htail
            cases origin <;> rfl
          · obtain ⟨rfl, htail⟩ := List.cons.inj hes
            obtain ⟨rfl, hrest⟩ := List.cons.inj htail
            exact (ih hrest).prepend hafter

end narration

/-! ## The position is announced once a task -/

namespace Reconciler

/-- What a deed announces: nothing if no trade was applied, and otherwise the trades and then,
once, the position. -/
def Deed.Concludes (d : Deed) : Prop :=
  if d.isNew then
    ∃ front s, d.events = front ++ [.position s] ∧ appliedIn front ≠ [] ∧
      ∀ e ∈ front, e.kind ≠ .position
  else d.events = []

variable {r s : Reconciler} {told : Trade → Bool} {task : Task} {isNew : Bool}
  {es : List Event}

/-- A task that has applied a trade announces the position last, and once; a task that has applied
none announces nothing. -/
theorem concludes_of_performWhen (h : r.performWhen told task = ⟨es, .ok (isNew, s)⟩) :
    (Deed.mk task isNew es).Concludes := by
  cases task with
  | take origin t =>
      rw [performWhen] at h
      cases deliver_eq_ok h with
      | ignored hout => exact rfl
      | kept fresh sound unknown => exact rfl
      | booked gain? position fresh sound known apply =>
          refine ⟨_, _, rfl, ?_, kind_announcements⟩
          rw [appliedIn_announcements]
          exact List.cons_ne_nil t []
  | look =>
      rw [performWhen] at h
      cases recheckWhen_eq_ok h with
      | idle hnone => exact rfl
      | booked front _ ready hall =>
          obtain ⟨happlied, hkinds⟩ := announced_of_applyAll _ hall
          exact ⟨front, _, rfl, happlied ▸ ready, hkinds⟩

/-- Every deed concludes with the position if it has applied a trade, wherever it stands among the
deeds. -/
theorem Deeds.concludes {deeds : List Deed} (h : Deeds r deeds s) : ∀ d ∈ deeds, d.Concludes := by
  induction h with
  | none =>
      intro d hd
      exact absurd hd List.not_mem_nil
  | snoc told task isNew es _ hperform ih =>
      intro d hd
      rcases List.mem_append.mp hd with hd | hd
      · exact ih d hd
      · rw [List.mem_singleton.mp hd]
        exact concludes_of_performWhen hperform

end Reconciler

/-! ## All runs -/

/-- **The log reproduces the ledger.**  After any run from a fresh desk, four subscribers of the
four kinds have been told the log, which reports each applied trade once.  The trades that it
reports add up to the position, the gains stand right behind their trades and add up to the profits,
by the same sums, and each announcement of the position is true.  Whatever happens next, each task
announces the position once, at its end, if it has applied a trade, and nothing if not.
Source: `process_trade_from`, `process` and `emit` of `EventRegistry`. -/
theorem log_reproduces_ledger {α : Type} {symbol : String} {terms : Terms}
    {settings : ServiceSettings} {known : KnownOrders} {happenings : List Happening} {c : Chronicle}
    (h : (Chronicle.opening (.fresh symbol terms settings known)).run happenings = .ok c)
    {subscribers : Subscribers α} (hone : ∀ kind, subscribers.count kind = 1) :
    (subscribers.tellAll c.log).1.map Call.event = c.log ∧
    ((appliedIn c.log).map Trade.key).Nodup ∧
    (∀ key, c.reconciler.isApplied key = true ↔ key ∈ (appliedIn c.log).map Trade.key) ∧
    Position.flat.afterAll terms (appliedIn c.log) = .ok c.reconciler.position ∧
    (∀ before e after, c.log = before ++ e :: after → e.Fits terms .flat before after) ∧
    Decimal.sum ((gainsIn c.log).map Gain.gross) = .ok c.reconciler.position.grossProfit ∧
    Decimal.sum ((gainsIn c.log).map Gain.net) = .ok c.reconciler.position.netProfit ∧
    ∀ happening c', c.next happening = .ok c' →
      ∃ deeds, c.reconciler.Deeds deeds c'.reconciler ∧
        deeds.map Reconciler.Deed.task = c.desk.tasks happening ∧
        c'.log = c.log ++ Reconciler.announcedIn deeds ∧ ∀ d ∈ deeds, d.Concludes := by
  obtain ⟨haccounts, -, hterms⟩ := accounts_of_run_fresh h
  have hnarrates : Narrates terms .flat c.log c.reconciler.position :=
    (Chronicle.steps_of_run_fresh h).narrates
  refine ⟨subscribers.map_event_tellAll c.log hone, haccounts.nodup, haccounts.applied,
    hterms ▸ haccounts.position, fun before e after hlog => hnarrates.fits hlog,
    hnarrates.grossProfit, hnarrates.netProfit, ?_⟩
  intro happening c' hnext
  obtain ⟨es, ⟨deeds, hdeeds, htasks, rfl⟩, -, hlog⟩ := Chronicle.fulfils_of_next hnext
  exact ⟨deeds, hdeeds, htasks, hlog, hdeeds.concludes⟩

/-- One subscriber for each kind. -/
def sampleSubscribers : Subscribers Unit :=
  EventKind.all.foldl (fun s kind => s.subscribe kind ()) .empty

/-- The log of the sample day: a trade and the position, and then a trade with a gain and the
position. -/
theorem log_reproduces_ledger_sampleDay :
    Yields (sampleOpening.run sampleDay) fun c =>
      (∀ kind, sampleSubscribers.count kind = 1) ∧
        c.log.map Event.kind = [.trade, .position, .trade, .gain, .position] ∧
        (sampleSubscribers.tellAll c.log).1.map Call.event = c.log ∧
        Position.flat.afterAll sampleTerms (appliedIn c.log) = .ok c.reconciler.position ∧
        Decimal.sum ((gainsIn c.log).map Gain.gross) = .ok c.reconciler.position.grossProfit := by
  have hrun : Yields (sampleOpening.run sampleDay) fun c =>
      c.log.map Event.kind = [.trade, .position, .trade, .gain, .position] := by decide +kernel
  have hone : ∀ kind, sampleSubscribers.count kind = 1 := by
    intro kind
    cases kind <;> rfl
  obtain ⟨c, hrun, hkinds⟩ := hrun
  obtain ⟨htold, -, -, hposition, -, hgross, -, -⟩ := log_reproduces_ledger hrun hone
  exact ⟨c, hrun, hone, hkinds, htold, hposition, hgross⟩

end CostBasis
