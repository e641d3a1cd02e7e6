import CostBasis.Proofs.History.Select
import CostBasis.Proofs.Reconciler.Books

/-!
# Recovering is taking trades

What a reconciler does with the answer of a history is what it does with the same trades as they
come in live, one after another, but for the name under which it announces a trade.  So the
position, the books and the pending trades are the same.

Taking a trade settles it: taking it again has no effect, until its order becomes known.  The answer
of a history has each key once, so no trade of it unsettles another one, and recovering again at
once does nothing.  For the same reason a recovery may begin too early.  The trades that have been
taken already are settled, and what is left are those that are missing.

Main statement: `recovery_equals_live`.
-/

namespace CostBasis

/-! ## Announced under another name -/

/-- The event by which a recovered trade is announced, in place of the one for a live trade. -/
def Event.asRecovered : Event → Event
  | .trade t => .recovery t
  | .recovery t => .recovery t
  | .gain t g => .gain t g
  | .position s => .position s

namespace Journal

variable {α β : Type}

/-- The same calculation with other events. -/
def mapEvents (g : Event → Event) (x : Journal α) : Journal α := ⟨x.events.map g, x.result⟩

/-- Calculations in a row have other events if each of them has; what they do is not touched. -/
theorem mapEvents_bind (g : Event → Event) (x : Journal α) (f : α → Journal β) :
    (x >>= f).mapEvents g = x.mapEvents g >>= fun a => (f a).mapEvents g := by
  obtain ⟨events, result⟩ := x
  cases result with
  | error fault => rfl
  | ok a =>
      rw [bind_of_ok rfl, bind_of_ok rfl]
      simp [mapEvents]

end Journal

/-! ## What a history answers a reconciler -/

namespace TradeSource

/-- What a history has, or the error that every sensible query meets. -/
def trades : TradeSource → ExceptT QueryError (Except Fault) (List Trade)
  | .memory archive => .mk <| .ok <|
    match archive.refusal with
    | some e => .error e
    | none => .ok archive.trades
  | .file path content => Csv.loadTrades path content

/-- The trades since an instant, if there is an answer at all. -/
theorem answer_since (source : TradeSource) (symbol : String) (start : Instant) :
    source.answer symbol (.since start) =
      source.trades >>= fun ts => pure ((TradeQuery.since start).selectAll symbol ts) := by
  cases source with
  | file path content => rfl
  | memory archive =>
      obtain ⟨trades, refusal, served⟩ := archive
      cases refusal <;> rfl

/-- An answer comes from what the history has, and is selected from all of it. -/
theorem answer_since_eq_ok {source : TradeSource} {symbol : String} {start : Instant}
    {us : List Trade} :
    (source.answer symbol (.since start)).run = .ok (.ok us) ↔
      ∃ ts, source.trades.run = .ok (.ok ts) ∧
        (TradeQuery.since start).selectAll symbol ts = us := by
  rw [answer_since, ExceptT.run_bind]
  rcases source.trades.run with fault | e | ts
  · show Except.error fault = _ ↔ _
    simp
  · show Except.ok (Except.error e) = _ ↔ _
    simp
  · show Except.ok (Except.ok ((TradeQuery.since start).selectAll symbol ts)) = _ ↔ _
    simp

/-- Whatever the query is, an answer is selected from what the history has, by either kind of
source. -/
theorem exists_of_answer_eq_ok {source : TradeSource} {symbol : String} {q : TradeQuery}
    {us : List Trade} (h : (source.answer symbol q).run = .ok (.ok us)) :
    ∃ ts, source.trades.run = .ok (.ok ts) ∧ q.select symbol ts = us := by
  have hbind : (source.trades >>= fun ts => pure (q.select symbol ts)).run = .ok (.ok us) := by
    cases hvalidate : q.validate with
    | error e =>
        cases source with
        | file path content =>
            rw [answer, Csv.queryTrades, hvalidate] at h
            cases h
        | memory archive =>
            rw [answer, Archive.answer, hvalidate] at h
            cases h
    | ok =>
        cases source with
        | file path content =>
            rw [answer, Csv.queryTrades, hvalidate] at h
            exact h
        | memory archive =>
            obtain ⟨trades, refusal, served⟩ := archive
            rw [answer, Archive.answer, hvalidate] at h
            cases refusal with
            | none => exact h
            | some e => cases h
  rw [ExceptT.run_bind] at hbind
  rcases hsource : source.trades.run with fault | e | ts <;> rw [hsource] at hbind <;> cases hbind
  exact ⟨ts, rfl, rfl⟩

end TradeSource

namespace Reconciler

open Event (asRecovered)

variable {r s : Reconciler} {isKnown : UInt64 → Bool} {origin : Origin} {t u : Trade}
  {ts : List Trade} {es : List Event} {isNew : Bool} {n : Nat}

/-- A recovered trade is applied like a live one, and announced under another name. -/
theorem apply_recovered (r : Reconciler) (t : Trade) :
    r.apply .recovered t = (r.apply .live t).mapEvents asRecovered := by
  unfold apply
  rw [Journal.mapEvents_bind]
  refine bind_congr fun a => ?_
  obtain ⟨gain?, position⟩ := a
  cases gain? <;> rfl

/-- A recovered trade is taken like a live one: it is looked at, applied or kept in the same way. -/
theorem deliver_recovered (r : Reconciler) (isKnown : UInt64 → Bool) (t : Trade) :
    r.deliver isKnown .recovered t = (r.deliver isKnown .live t).mapEvents asRecovered := by
  unfold deliver
  split
  · rfl
  · split
    · rw [Journal.mapEvents_bind, apply_recovered]
      rfl
    · rfl

/-- **Recovered trades are taken like live ones**, and announced under another name.  The induction
is on the trades. -/
theorem deliverAll_recovered (isKnown : UInt64 → Bool) (ts : List Trade) : ∀ r : Reconciler,
    r.deliverAll isKnown .recovered ts = (r.deliverAll isKnown .live ts).mapEvents asRecovered := by
  induction ts with
  | nil =>
      intro r
      rfl
  | cons t ts ih =>
      intro r
      rw [deliverAll_cons, deliverAll_cons, Journal.mapEvents_bind, deliver_recovered]
      refine bind_congr fun a => ?_
      rw [Journal.mapEvents_bind, ih]
      rfl

/-! ## Settled trades -/

/-- A trade that is in the books, can never be, or is pending for an order that is not known. -/
inductive Settled (r : Reconciler) (isKnown : UInt64 → Bool) (t : Trade) : Prop
  | ignored (h : r.isApplied t.key = true ∨ ¬r.isSound t = true)
  | waiting (unknown : ¬isKnown t.orderId = true) (h : r.pending.add t = r.pending)

/-- Taking a settled trade has no effect: a pending one takes its own place once more. -/
theorem Settled.deliver (h : r.Settled isKnown t) (origin : Origin) :
    r.deliver isKnown origin t = ⟨[], .ok (false, r)⟩ := by
  by_cases hout : r.isApplied t.key = true ∨ ¬r.isSound t = true
  · exact deliver_of_ignored hout
  · rw [not_or, not_not] at hout
    cases h with
    | ignored hignored => exact absurd hignored (not_or.mpr ⟨hout.1, not_not.mpr hout.2⟩)
    | waiting unknown hpending => rw [deliver_of_unknown hout.1 hout.2 unknown, hpending]

/-- Taking settled trades has no effect, as each of them leaves the others settled by leaving
everything as it was. -/
theorem Settled.deliverAll (origin : Origin) (ts : List Trade) :
    (∀ t ∈ ts, r.Settled isKnown t) → r.deliverAll isKnown origin ts = ⟨[], .ok (0, r)⟩ := by
  induction ts with
  | nil =>
      intro _
      rfl
  | cons t ts ih =>
      intro h
      obtain ⟨ht, hts⟩ := List.forall_mem_cons.mp h
      rw [deliverAll_cons, ht.deliver origin, Journal.bind_of_ok rfl, ih hts]
      rfl

/-- **Taking a trade settles it**: then it is in the books, or can never be, or is pending. -/
theorem settled_of_deliver (h : r.deliver isKnown origin t = ⟨es, .ok (isNew, s)⟩) :
    s.Settled isKnown t := by
  cases deliver_eq_ok h with
  | ignored hout => exact .ignored hout
  | kept fresh sound unknown => exact .waiting unknown Pending.add_add_self
  | booked gain? position fresh sound known apply =>
      exact .ignored (.inl ((isApplied_book ..).mpr (.inl rfl)))

/-- Taking a trade with another key leaves a settled trade settled.  In particular a pending trade
is not pushed out, since trades of one symbol with different keys have different numbers. -/
theorem Settled.of_deliver (h : r.Settled isKnown u) (hkey : t.key ≠ u.key)
    (hdeliver : r.deliver isKnown origin t = ⟨es, .ok (isNew, s)⟩) : s.Settled isKnown u := by
  cases deliver_eq_ok hdeliver with
  | ignored hout => exact h
  | kept fresh sound unknown =>
      cases h with
      | ignored hignored => exact .ignored hignored
      | waiting unknown' hpending =>
          by_cases husound : r.isSound u = true
          · -- Sound trades have one symbol, so those with different keys have different numbers.
            have hid : t.id ≠ u.id := by
              intro hid
              rw [Trade.key, Trade.key, hid, (isSound_iff.mp sound).1, (isSound_iff.mp husound).1]
                at hkey
              exact hkey rfl
            refine .waiting unknown' ?_
            show (r.pending.add t).add u = r.pending.add t
            rw [Pending.add_add_comm hid, hpending]
          · exact .ignored (.inr husound)
  | booked gain? position fresh sound known apply =>
      cases h with
      | ignored hignored =>
          refine .ignored ?_
          rw [isApplied_book, or_assoc]
          exact .inr hignored
      | waiting unknown hpending => exact .waiting unknown hpending

/-- Taking trades with other keys leaves a settled trade settled.  The induction is on these
trades. -/
theorem Settled.of_deliverAll (ts : List Trade) : ∀ {r : Reconciler} {es : List Event} {n : Nat},
    r.Settled isKnown u → u.key ∉ ts.map Trade.key →
      r.deliverAll isKnown origin ts = ⟨es, .ok (n, s)⟩ → s.Settled isKnown u := by
  induction ts with
  | nil =>
      intro r es n hsettled _ h
      obtain ⟨-, hs⟩ := Journal.pure_eq_ok h
      obtain rfl := congrArg Prod.snd hs
      exact hsettled
  | cons t ts ih =>
      intro r es n hsettled hnew h
      rw [List.map_cons, List.mem_cons, not_or] at hnew
      obtain ⟨first, isNew, q, rest, k, hone, hrest, -, -⟩ := deliverAll_cons_eq_ok h
      exact ih (hsettled.of_deliver (Ne.symm hnew.1) hone) hnew.2 hrest

/-- **Taking trades with distinct keys settles all of them.**  The induction is on the trades; those
behind a trade have other keys, and leave it settled. -/
theorem settled_of_deliverAll (ts : List Trade) : ∀ {r : Reconciler} {es : List Event} {n : Nat},
    (ts.map Trade.key).Nodup → r.deliverAll isKnown origin ts = ⟨es, .ok (n, s)⟩ →
      ∀ t ∈ ts, s.Settled isKnown t := by
  induction ts with
  | nil =>
      intro r es n _ _ t ht
      exact absurd ht List.not_mem_nil
  | cons t ts ih =>
      intro r es n hnodup h
      rw [List.map_cons, List.nodup_cons] at hnodup
      obtain ⟨first, isNew, q, rest, k, hone, hrest, -, -⟩ := deliverAll_cons_eq_ok h
      exact List.forall_mem_cons.mpr
        ⟨(settled_of_deliver hone).of_deliverAll ts hnodup.1 hrest, ih hnodup.2 hrest⟩

/-! ## Recovering -/

/-- As many more keys are in the books as trades were counted. -/
theorem size_applied_of_deliver (h : r.deliver isKnown origin t = ⟨es, .ok (isNew, s)⟩) :
    s.applied.size = r.applied.size + isNew.toNat := by
  cases deliver_eq_ok h with
  | ignored hout => rfl
  | kept fresh sound unknown => rfl
  | booked gain? position fresh sound known apply => exact size_applied_book fresh position

/-- So it is with several trades, whose counts add up. -/
theorem size_applied_of_deliverAll (ts : List Trade) : ∀ {r : Reconciler} {es : List Event}
    {n : Nat}, r.deliverAll isKnown origin ts = ⟨es, .ok (n, s)⟩ →
      s.applied.size = r.applied.size + n := by
  induction ts with
  | nil =>
      intro r es n h
      obtain ⟨-, hs⟩ := Journal.pure_eq_ok h
      obtain ⟨rfl, rfl⟩ := Prod.mk.inj hs
      rfl
  | cons t ts ih =>
      intro r es n h
      obtain ⟨first, isNew, q, rest, k, hone, hrest, -, rfl⟩ := deliverAll_cons_eq_ok h
      rw [ih hrest, size_applied_of_deliver hone, Nat.add_assoc]

/-- To recover the trades of an answer is to take them, with other events.
Source: the loop in `recover`. -/
theorem recover_ok (r : Reconciler) (isKnown : UInt64 → Bool) (ts : List Trade) :
    r.recover isKnown (.ok ts) = (r.deliverAll isKnown .live ts).mapEvents asRecovered >>= fun a =>
      pure (.ok a.1, a.2) := by
  rw [← deliverAll_recovered]
  rfl

/-- A recovery has a result if taking the trades live has one.  It is the same result, with the
events under their other name. -/
theorem recover_eq_ok {answer : Except QueryError Nat} :
    r.recover isKnown (.ok ts) = ⟨es, .ok (answer, s)⟩ ↔
      ∃ live n, r.deliverAll isKnown .live ts = ⟨live, .ok (n, s)⟩ ∧ answer = .ok n ∧
        es = live.map asRecovered := by
  rcases hlive : r.deliverAll isKnown .live ts with ⟨live, result⟩
  rw [recover_ok, hlive]
  cases result with
  | error fault =>
      rw [Journal.bind_of_error rfl]
      simp
  | ok a =>
      obtain ⟨n, q⟩ := a
      rw [Journal.bind_of_ok rfl]
      simp only [Journal.mapEvents, Journal.pure_eq, List.append_nil, Journal.mk.injEq,
        Except.ok.injEq, Prod.mk.injEq]
      constructor
      · rintro ⟨rfl, rfl, rfl⟩
        exact ⟨live, n, ⟨rfl, rfl, rfl⟩, rfl, rfl⟩
      · rintro ⟨live, n, ⟨rfl, rfl, rfl⟩, rfl, rfl⟩
        exact ⟨rfl, rfl, rfl⟩

/-- A recovery from a source is one from its answer. -/
theorem recoverFrom_of_answer {source : TradeSource} {sought : String} {start : Instant}
    {answer : Except QueryError (List Trade)}
    (h : (source.answer sought (.since start)).run = .ok answer) (r : Reconciler) :
    r.recoverFrom isKnown source sought start = r.recover isKnown answer := by
  unfold recoverFrom
  rw [h]
  exact pure_bind answer _

/-! ## Completing what is missing -/

/-- Of trades in the order of time, a recovery from no later than the first missing one leaves out
none that is missing. -/
theorem filter_since_append {done missing : List Trade} {start : Instant}
    (hsorted : (done ++ missing).Pairwise fun t u => Trade.notAfter t u = true)
    (hstart : ∀ t ∈ missing.head?, start ≤ t.time) :
    (done ++ missing).filter (TradeQuery.since start).accepts =
      done.filter (TradeQuery.since start).accepts ++ missing := by
  have hkeep : ∀ t ∈ missing, (TradeQuery.since start).accepts t = true := by
    intro t ht
    rw [TradeQuery.accepts_since, decide_eq_true_eq]
    cases missing with
    | nil => exact absurd ht List.not_mem_nil
    | cons first rest =>
        have hfirst : start ≤ first.time := hstart first rfl
        rcases List.mem_cons.mp ht with rfl | ht
        · exact hfirst
        · have hrest := (List.pairwise_cons.mp (List.pairwise_append.mp hsorted).2.1).1 t ht
          exact Int64.le_trans hfirst (Trade.time_le_of_notAfter hrest)
  rw [List.filter_append, List.filter_eq_self.mpr hkeep]

/-- A recovery ends as taking the trades live does. -/
theorem result_recover (r : Reconciler) (isKnown : UInt64 → Bool) (ts : List Trade) :
    (r.recover isKnown (.ok ts)).result.map Prod.snd =
      (r.deliverAll isKnown .live ts).result.map Prod.snd := by
  rw [recover_ok]
  rcases r.deliverAll isKnown .live ts with ⟨live, fault | a⟩ <;> rfl

/-- Settled trades in front of others make no difference. -/
theorem Settled.deliverAll_append (h : ∀ t ∈ ts, r.Settled isKnown t) (us : List Trade) :
    r.deliverAll isKnown origin (ts ++ us) = r.deliverAll isKnown origin us := by
  rw [Reconciler.deliverAll_append, Settled.deliverAll origin ts h, ← Journal.pure_eq, pure_bind]
  simp only [Nat.zero_add]
  exact bind_pure _

/-- **A recovery completes what has been taken live.**  What has been taken is settled, so of the
answer only what is missing has an effect. -/
theorem recoverFrom_completes {source : TradeSource} {sought : String} {start : Instant}
    {contents done missing : List Trade} (hcontents : source.trades.run = .ok (.ok contents))
    (hperm : (contents.filter fun t => t.symbol == sought).Perm (done ++ missing))
    (hnodup : ((done ++ missing).map Trade.key).Nodup)
    (hsorted : (done ++ missing).Pairwise fun t u => Trade.notAfter t u = true)
    (hstart : ∀ t ∈ missing.head?, start ≤ t.time) (r : Reconciler) :
    (r.deliverAll isKnown .live done >>= fun a =>
        a.2.recoverFrom isKnown source sought start).result.map Prod.snd =
      (r.deliverAll isKnown .live (done ++ missing)).result.map Prod.snd := by
  have hanswer : (source.answer sought (.since start)).run =
      .ok (.ok (done.filter (TradeQuery.since start).accepts ++ missing)) := by
    refine TradeSource.answer_since_eq_ok.mpr ⟨contents, hcontents, ?_⟩
    rw [TradeQuery.selectAll_of_perm hperm hnodup hsorted, filter_since_append hsorted hstart]
  have hdone : (done.map Trade.key).Nodup :=
    hnodup.sublist ((List.sublist_append_left ..).map _)
  rw [deliverAll_append]
  rcases hlive : r.deliverAll isKnown .live done with ⟨live, fault | ⟨n, s⟩⟩
  · rw [Journal.bind_of_error rfl, Journal.bind_of_error rfl]
    rfl
  · -- What has been taken already is settled, so the recovery takes what is missing.
    have hsettled : ∀ t ∈ done.filter (TradeQuery.since start).accepts, s.Settled isKnown t :=
      fun t ht => settled_of_deliverAll done hdone hlive t (List.mem_of_mem_filter ht)
    rw [Journal.bind_of_ok rfl, Journal.bind_of_ok rfl]
    show (s.recoverFrom isKnown source sought start).result.map Prod.snd = _
    rw [recoverFrom_of_answer hanswer, result_recover, Settled.deliverAll_append hsettled]
    rcases s.deliverAll isKnown .live missing with ⟨live', fault | b⟩ <;> rfl

end Reconciler

/-! ## All recoveries -/

/-- **Recovering is taking trades.**  An error of the history is passed on, and nothing happens.
Otherwise the recovery has a result exactly if taking the trades of the answer live has one; then it
leaves the reconciler in the same state, returns how many trades were applied, and announces the
same, but for the name under which it announces a trade.  Repeated at once, it applies and announces
nothing and changes nothing.  If the history has, of the symbol, some trades with distinct keys, of
which the earlier ones have been taken live, then a recovery from no later than the first missing
one ends as if all of them had been taken live.
Source: recovery equivalence; specification, section 8. -/
theorem recovery_equals_live (r : Reconciler) (isKnown : UInt64 → Bool) (source : TradeSource)
    (sought : String) (start : Instant) :
    (∀ e, (source.answer sought (.since start)).run = .ok (.error e) →
      r.recoverFrom isKnown source sought start = ⟨[], .ok (.error e, r)⟩) ∧
    (∀ ts, (source.answer sought (.since start)).run = .ok (.ok ts) →
      (∀ es answer s, r.recoverFrom isKnown source sought start = ⟨es, .ok (answer, s)⟩ ↔
        ∃ live n, r.deliverAll isKnown .live ts = ⟨live, .ok (n, s)⟩ ∧ answer = .ok n ∧
          es = live.map Event.asRecovered) ∧
      ∀ es n s, r.recoverFrom isKnown source sought start = ⟨es, .ok (.ok n, s)⟩ →
        s.applied.size = r.applied.size + n ∧
          s.recoverFrom isKnown source sought start = ⟨[], .ok (.ok 0, s)⟩) ∧
    ∀ contents done missing, source.trades.run = .ok (.ok contents) →
      (contents.filter fun t => t.symbol == sought).Perm (done ++ missing) →
      ((done ++ missing).map Trade.key).Nodup →
      (done ++ missing).Pairwise (fun t u => Trade.notAfter t u = true) →
      (∀ t ∈ missing.head?, start ≤ t.time) →
        (r.deliverAll isKnown .live done >>= fun a =>
            a.2.recoverFrom isKnown source sought start).result.map Prod.snd =
          (r.deliverAll isKnown .live (done ++ missing)).result.map Prod.snd := by
  refine ⟨?_, ?_, ?_⟩
  · intro e he
    rw [Reconciler.recoverFrom_of_answer he]
    rfl
  · intro ts hts
    have hrecover : ∀ es answer s, r.recoverFrom isKnown source sought start =
        ⟨es, .ok (answer, s)⟩ ↔ ∃ live n, r.deliverAll isKnown .live ts = ⟨live, .ok (n, s)⟩ ∧
          answer = .ok n ∧ es = live.map Event.asRecovered := by
      intro es answer s
      rw [Reconciler.recoverFrom_of_answer hts, Reconciler.recover_eq_ok]
    refine ⟨hrecover, ?_⟩
    intro es n s h
    obtain ⟨live, n, hlive, ⟨⟩, -⟩ := (hrecover es (.ok n) s).mp h
    -- The answer has each key once, so all of it is settled.
    have hnodup : (ts.map Trade.key).Nodup := by
      obtain ⟨contents, -, rfl⟩ := TradeSource.answer_since_eq_ok.mp hts
      exact TradeQuery.nodup_keys_selectAll contents
    have hsettled := Reconciler.settled_of_deliverAll ts hnodup hlive
    refine ⟨Reconciler.size_applied_of_deliverAll ts hlive, ?_⟩
    rw [Reconciler.recoverFrom_of_answer hts, Reconciler.recover_ok,
      Reconciler.Settled.deliverAll .live ts hsettled]
    rfl
  · intro contents done missing hcontents hperm hnodup hsorted hstart
    exact Reconciler.recoverFrom_completes hcontents hperm hnodup hsorted hstart r

/-! ### A sample recovery -/

/-- Three trades of the sample market, in the order of time. -/
def sampleTape : List Trade :=
  [sampleTrade 1 .buy 100 1 1, sampleTrade 2 .sell 103 1 1, sampleTrade 3 .sell 99 3 1]

/-- The same in another order, and one of another symbol among them. -/
def sampleContents : List Trade :=
  [sampleTrade 3 .sell 99 3 1, { sampleTrade 4 .buy 1 1 0 with symbol := "ETHUSDT" },
    sampleTrade 1 .buy 100 1 1, sampleTrade 2 .sell 103 1 1]

/-- A history that has them. -/
def sampleSource : TradeSource := .memory (.ofTrades sampleContents none)

/-- A history that is asked too often. -/
def sampleRefusal : TradeSource := .memory (.ofTrades sampleContents (some .rateLimited))

/-- A reconciler of the sample market. -/
def sampleReconciler : Reconciler := .start "BTCUSDT" sampleTerms

/-- A refused query; a recovery of the last two of three trades, and again; and one after the first
trade has been taken live, which completes the three. -/
theorem recovery_equals_live_sampleSource :
    sampleReconciler.recoverFrom (fun _ => true) sampleRefusal "BTCUSDT" ⟨2000⟩ =
        ⟨[], .ok (.error .rateLimited, sampleReconciler)⟩ ∧
      (∃ es s, sampleReconciler.recoverFrom (fun _ => true) sampleSource "BTCUSDT" ⟨2000⟩ =
          ⟨es, .ok (.ok 2, s)⟩ ∧ s.applied.size = sampleReconciler.applied.size + 2 ∧
        s.recoverFrom (fun _ => true) sampleSource "BTCUSDT" ⟨2000⟩ = ⟨[], .ok (.ok 0, s)⟩) ∧
      (sampleReconciler.deliverAll (fun _ => true) .live (sampleTape.take 1) >>= fun a =>
          a.2.recoverFrom (fun _ => true) sampleSource "BTCUSDT" ⟨2000⟩).result.map Prod.snd =
        (sampleReconciler.deliverAll (fun _ => true) .live sampleTape).result.map Prod.snd ∧
      Yields (sampleReconciler.deliverAll (fun _ => true) .live sampleTape).result fun a =>
        a.2.position.tradeCount = 3 := by
  have hperm : (sampleContents.filter fun t => t.symbol == "BTCUSDT").Perm sampleTape := by
    decide +kernel
  have hnodup : (sampleTape.map Trade.key).Nodup := by decide +kernel
  have hsorted : sampleTape.Pairwise fun t u => Trade.notAfter t u = true := by decide +kernel
  have hstart : ∀ t ∈ (sampleTape.drop 1).head?, (⟨2000⟩ : Instant) ≤ t.time := by decide +kernel
  have hanswer : (sampleSource.answer "BTCUSDT" (.since ⟨2000⟩)).run =
      .ok (.ok (sampleTape.drop 1)) := by
    have hselect := TradeQuery.selectAll_of_perm (q := .since ⟨2000⟩) hperm hnodup hsorted
    exact TradeSource.answer_since_eq_ok.mpr
      ⟨sampleContents, rfl, hselect.trans (by decide +kernel)⟩
  have hlive : Yields (sampleReconciler.deliverAll (fun _ => true) .live (sampleTape.drop 1)).result
      fun a => a.1 = 2 := by decide +kernel
  have hall : Yields (sampleReconciler.deliverAll (fun _ => true) .live sampleTape).result fun a =>
      a.2.position.tradeCount = 3 := by decide +kernel
  obtain ⟨hfails, -, -⟩ := recovery_equals_live sampleReconciler (fun _ => true) sampleRefusal
    "BTCUSDT" ⟨2000⟩
  obtain ⟨-, hanswers, hcompletes⟩ := recovery_equals_live sampleReconciler (fun _ => true)
    sampleSource "BTCUSDT" ⟨2000⟩
  obtain ⟨hrecover, hagain⟩ := hanswers _ hanswer
  obtain ⟨⟨_, s⟩, hlive, rfl⟩ := hlive
  have hrecovered := (hrecover _ (.ok 2) s).mpr
    ⟨_, 2, show sampleReconciler.deliverAll _ _ _ = ⟨_, .ok (2, s)⟩ by rw [← hlive], rfl, rfl⟩
  exact ⟨hfails _ rfl, ⟨_, s, hrecovered, hagain _ 2 s hrecovered⟩,
    hcompletes sampleContents (sampleTape.take 1) (sampleTape.drop 1) rfl hperm hnodup hsorted
      hstart, hall⟩

end CostBasis
