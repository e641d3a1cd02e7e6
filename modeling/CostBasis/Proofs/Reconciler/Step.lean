import CostBasis.Proofs.Reconciler.Pending
import CostBasis.Reconciler.Basic

/-!
# The small steps of a reconciler

Whatever a reconciler is asked to do, it does it in small steps, of which there are six.  A trade
that is handed to it is ignored, kept, or booked; a pending trade is booked, or forgotten once
there is one with its key in the books; and the position is announced.  A step is labelled with
the trades that it was handed and the events that it announced.

So a property of all runs needs to be looked at for these steps only.  No proof about runs opens a
function of the reconciler again.

Main statements: `steps_of_deliver`, `steps_of_recheck`.
-/

namespace CostBasis

/-! ## Applied trades in a log -/

/-- The trade that an event reports as applied. -/
def Event.applied? : Event → Option Trade
  | .trade t => some t
  | .recovery t => some t
  | .gain .. => none
  | .position _ => none

/-- The trades that a log reports as applied, in its order. -/
def appliedIn (log : List Event) : List Trade := log.filterMap Event.applied?

/-- An empty log reports no trade. -/
@[simp] theorem appliedIn_nil : appliedIn [] = [] := rfl

/-- A log reports trades part by part. -/
@[simp] theorem appliedIn_append (es fs : List Event) :
    appliedIn (es ++ fs) = appliedIn es ++ appliedIn fs :=
  List.filterMap_append

/-- To announce the position is to report no trade. -/
@[simp] theorem appliedIn_position (s : Snapshot) : appliedIn [.position s] = [] := rfl

namespace Reconciler

/-- The events that announce a trade and what it has earned. -/
def announcements (origin : Origin) (t : Trade) : Option Gain → List Event
  | none => [origin.announcement t]
  | some gain => [origin.announcement t, .gain t gain]

/-- The announcements of a trade report this trade. -/
@[simp] theorem appliedIn_announcements (origin : Origin) (t : Trade) (gain? : Option Gain) :
    appliedIn (announcements origin t gain?) = [t] := by
  cases origin <;> cases gain? <;> rfl

/-- The announcements of a trade do not tell the position. -/
theorem kind_announcements {origin : Origin} {t : Trade} {gain? : Option Gain} :
    ∀ e ∈ announcements origin t gain?, e.kind ≠ .position := by
  cases origin <;> cases gain? <;> simp [announcements, Origin.announcement, Event.kind]

/-! ## Small steps -/

/-- The reconciler with one more trade in its books. -/
def book (r : Reconciler) (t : Trade) (position : Position) : Reconciler :=
  { r with position, applied := r.applied.insert t.key }

/-- A small step, with the trades that it was handed and the events that it announced. -/
inductive Step (r : Reconciler) : List Trade → List Event → Reconciler → Prop
  /-- A trade that is in the books or can never be is ignored. -/
  | ignored (t : Trade) (h : r.isApplied t.key = true ∨ ¬r.isSound t = true) : Step r [t] [] r
  /-- A trade is kept pending. -/
  | kept (t : Trade) (fresh : ¬r.isApplied t.key = true) (sound : r.isSound t = true) :
      Step r [t] [] { r with pending := r.pending.add t }
  /-- A trade is booked as it is handed over. -/
  | booked (origin : Origin) (t : Trade) (gain? : Option Gain) (position : Position)
      (fresh : ¬r.isApplied t.key = true) (sound : r.isSound t = true)
      (apply : r.position.apply r.terms t = .ok (gain?, position)) :
      Step r [t] (announcements origin t gain?) (r.book t position)
  /-- A pending trade is booked. -/
  | released (t : Trade) (gain? : Option Gain) (position : Position)
      (fresh : ¬r.isApplied t.key = true) (pending : t ∈ r.pending.toList)
      (apply : r.position.apply r.terms t = .ok (gain?, position)) :
      Step r [] (announcements .live t gain?) (r.book t position)
  /-- Pending trades whose keys are in the books are forgotten. -/
  | forgotten (leaves : Trade → Bool)
      (h : ∀ t ∈ r.pending.toList, leaves t = true → r.isApplied t.key = true) :
      Step r [] [] { r with pending := r.pending.discard leaves }
  /-- The position is announced. -/
  | announced : Step r [] [.position r.snapshot] r

/-- Small steps one after another. -/
inductive Steps (r : Reconciler) : List Trade → List Event → Reconciler → Prop
  | none : Steps r [] [] r
  | snoc {handed more : List Trade} {log es : List Event} {s s' : Reconciler} :
      Steps r handed log s → Step s more es s' → Steps r (handed ++ more) (log ++ es) s'

variable {r s s' : Reconciler} {handed more : List Trade} {log es : List Event}

/-- One small step. -/
theorem Step.steps (h : Step r handed log s) : Steps r handed log s := Steps.none.snoc h

/-- Small steps may be followed by others.  Their labels are put together. -/
theorem Steps.trans (h : Steps r handed log s) (h' : Steps s more es s') :
    Steps r (handed ++ more) (log ++ es) s' := by
  induction h' with
  | none =>
      rw [List.append_nil, List.append_nil]
      exact h
  | snoc _ hstep ih =>
      rw [← List.append_assoc, ← List.append_assoc]
      exact ih.snoc hstep

/-- Nothing changes the symbol or the terms. -/
theorem Steps.unchanged (h : Steps r handed log s) : s.symbol = r.symbol ∧ s.terms = r.terms := by
  induction h with
  | none => exact ⟨rfl, rfl⟩
  | snoc _ hstep ih => cases hstep <;> exact ih

/-! ## Booking -/

/-- Booking a trade adds its key to those in the books. -/
@[simp] theorem isApplied_book (r : Reconciler) (t : Trade) (position : Position)
    (key : TradeKey) :
    (r.book t position).isApplied key = true ↔ t.key = key ∨ r.isApplied key = true := by
  unfold isApplied book
  rw [Std.ExtTreeSet.contains_insert, Bool.or_eq_true, beq_iff_eq,
    Std.LawfulEqCmp.compare_eq_iff_eq]

/-- Booking a trade leaves those with other keys as new as they were. -/
theorem not_isApplied_book {t u : Trade} {ts : List Trade} {position : Position}
    (hnew : t.key ∉ ts.map Trade.key) (hu : u ∈ ts) (hfresh : ¬r.isApplied u.key = true) :
    ¬(r.book t position).isApplied u.key = true := by
  rw [isApplied_book, not_or]
  exact ⟨fun hkey => hnew (hkey ▸ List.mem_map_of_mem hu), hfresh⟩

/-- A new key is one more.  An old one would leave the number of keys as it is. -/
theorem size_applied_book {t : Trade} (h : ¬r.isApplied t.key = true) (position : Position) :
    (r.book t position).applied.size = r.applied.size + 1 := by
  have hnot : ¬r.applied.contains t.key = true := h
  show (r.applied.insert t.key).size = _
  rw [Std.ExtTreeSet.size_insert, if_neg hnot]

/-- Applying a trade books it, and announces it and what it has earned.
Source: `apply` of `TradeCollector`, with `add_trade` of `Position`. -/
theorem apply_eq_ok {origin : Origin} {t : Trade} (h : r.apply origin t = ⟨es, .ok s⟩) :
    ∃ gain? position, r.position.apply r.terms t = .ok (gain?, position) ∧
      es = announcements origin t gain? ∧ s = r.book t position := by
  unfold apply at h
  obtain ⟨_, ⟨gain?, position⟩, rest, hposition, h, rfl⟩ := Journal.bind_eq_ok.mp h
  obtain ⟨rfl, happly⟩ := Journal.mk.inj hposition
  refine ⟨gain?, position, happly, ?_⟩
  cases gain? with
  | none =>
      obtain ⟨rfl, hs⟩ := Journal.mk.inj h
      exact ⟨rfl, (Except.ok.inj hs).symm⟩
  | some gain =>
      obtain ⟨rfl, hs⟩ := Journal.mk.inj h
      exact ⟨rfl, (Except.ok.inj hs).symm⟩

/-- Announcing the position announces it and nothing else. -/
theorem announcePosition_eq_ok {α : Type} {a b : α}
    (h : (r.announcePosition >>= fun _ => pure a) = ⟨es, .ok b⟩) :
    es = [.position r.snapshot] ∧ a = b := by
  obtain ⟨rfl, hb⟩ := Journal.mk.inj h
  exact ⟨rfl, Except.ok.inj hb⟩

/-! ## What the reconciler can be asked to do -/

variable {isKnown : UInt64 → Bool} {origin : Origin} {t : Trade} {isNew : Bool}

/-- A trade that is in the books or can never be has no effect.
Source: the first checks in `process_trade_from`. -/
theorem deliver_of_ignored (h : r.isApplied t.key = true ∨ ¬r.isSound t = true) :
    r.deliver isKnown origin t = ⟨[], .ok (false, r)⟩ := by
  have hout : (r.isApplied t.key || !r.isSound t) = true := by simpa using h
  rw [deliver, if_pos hout]
  rfl

/-- What becomes of a new sound trade hangs on whether its order is known. -/
theorem deliver_of_sound (hfresh : ¬r.isApplied t.key = true) (hsound : r.isSound t = true) :
    r.deliver isKnown origin t =
      if isKnown t.orderId then
        r.apply origin t >>= fun s => s.announcePosition >>= fun _ => pure (true, s)
      else pure (false, { r with pending := r.pending.add t }) := by
  have hout : ¬(r.isApplied t.key || !r.isSound t) = true := by simp [hfresh, hsound]
  rw [deliver, if_neg hout]

/-- A new trade whose order is known is applied, and the position is announced. -/
theorem deliver_of_known (hfresh : ¬r.isApplied t.key = true) (hsound : r.isSound t = true)
    (hknown : isKnown t.orderId = true) :
    r.deliver isKnown origin t = r.apply origin t >>= fun s =>
      s.announcePosition >>= fun _ => pure (true, s) := by
  rw [deliver_of_sound hfresh hsound, if_pos hknown]

/-- A new trade whose order is not known is kept among the pending trades, and nothing is
announced. -/
theorem deliver_of_unknown (hfresh : ¬r.isApplied t.key = true) (hsound : r.isSound t = true)
    (hunknown : ¬isKnown t.orderId = true) :
    r.deliver isKnown origin t = ⟨[], .ok (false, { r with pending := r.pending.add t })⟩ := by
  rw [deliver_of_sound hfresh hsound, if_neg hunknown, Journal.pure_eq]

/-- What taking a trade can lead to: the events, whether the trade was applied, and the reconciler
afterwards. -/
inductive Delivery (r : Reconciler) (isKnown : UInt64 → Bool) (origin : Origin) (t : Trade) :
    List Event → Bool → Reconciler → Prop
  /-- The trade is in the books or can never be. -/
  | ignored (h : r.isApplied t.key = true ∨ ¬r.isSound t = true) :
      Delivery r isKnown origin t [] false r
  /-- The order is not known. -/
  | kept (fresh : ¬r.isApplied t.key = true) (sound : r.isSound t = true)
      (unknown : ¬isKnown t.orderId = true) :
      Delivery r isKnown origin t [] false { r with pending := r.pending.add t }
  /-- The order is known. -/
  | booked (gain? : Option Gain) (position : Position) (fresh : ¬r.isApplied t.key = true)
      (sound : r.isSound t = true) (known : isKnown t.orderId = true)
      (apply : r.position.apply r.terms t = .ok (gain?, position)) :
      Delivery r isKnown origin t
        (announcements origin t gain? ++ [.position (r.book t position).snapshot]) true
        (r.book t position)

/-- Taking a trade leads to one of these: it was passed over, applied or kept.
Source: the returns of `process_trade_from`. -/
theorem deliver_eq_ok (h : r.deliver isKnown origin t = ⟨es, .ok (isNew, s)⟩) :
    r.Delivery isKnown origin t es isNew s := by
  by_cases hout : r.isApplied t.key = true ∨ ¬r.isSound t = true
  · rw [deliver_of_ignored hout] at h
    obtain ⟨rfl, hs⟩ := Journal.pure_eq_ok h
    obtain ⟨rfl, rfl⟩ := Prod.mk.inj hs
    exact .ignored hout
  · rw [not_or, not_not] at hout
    obtain ⟨hfresh, hsound⟩ := hout
    by_cases hknown : isKnown t.orderId = true
    · rw [deliver_of_known hfresh hsound hknown] at h
      obtain ⟨first, r', rest, hbook, hannounce, rfl⟩ := Journal.bind_eq_ok.mp h
      obtain ⟨gain?, position, hposition, rfl, rfl⟩ := apply_eq_ok hbook
      obtain ⟨rfl, hs⟩ := announcePosition_eq_ok hannounce
      obtain ⟨rfl, rfl⟩ := Prod.mk.inj hs
      exact .booked gain? position hfresh hsound hknown hposition
    · rw [deliver_of_unknown hfresh hsound hknown] at h
      obtain ⟨rfl, hs⟩ := Journal.pure_eq_ok h
      obtain ⟨rfl, rfl⟩ := Prod.mk.inj hs
      exact .kept hfresh hsound hknown

/-- **Taking a trade is made of small steps**, and hands this trade over. -/
theorem steps_of_deliver (h : r.deliver isKnown origin t = ⟨es, .ok (isNew, s)⟩) :
    Steps r [t] es s := by
  cases deliver_eq_ok h with
  | ignored hout => exact (Step.ignored t hout).steps
  | kept fresh sound unknown => exact (Step.kept t fresh sound).steps
  | booked gain? position fresh sound known apply =>
      exact (Step.booked origin t gain? position fresh sound apply).steps.snoc .announced

/-! ### Looking at the pending trades

Each pending trade is asked about by itself, and what is known may change meanwhile.  So a look is
told of each trade whether its order is known. -/

/-- The pending trades that can be applied, by what one is told of them. -/
def readyWhen (r : Reconciler) (told : Trade → Bool) : List Trade :=
  r.pending.toList.filter fun t => !r.isApplied t.key && told t

/-- The pending trades that stay pending after a look at them, by what one is told of them. -/
def waitingWhen (r : Reconciler) (told : Trade → Bool) : Pending :=
  r.pending.discard fun t => r.isApplied t.key || told t

/-- A look at the pending trades, which is told of each of them whether its order is known. -/
def recheckWhen (r : Reconciler) (told : Trade → Bool) : Journal (Bool × Reconciler) := do
  let ready := r.readyWhen told
  let r := { r with pending := r.waitingWhen told }
  if ready.isEmpty then return (false, r)
  else do
    let r ← r.applyAll .live ready
    r.announcePosition
    return (true, r)

/-- A look at the pending trades in whose course nothing becomes known or is forgotten: what is
known about orders is told of their trades. -/
theorem recheck_eq_recheckWhen (r : Reconciler) (isKnown : UInt64 → Bool) :
    r.recheck isKnown = r.recheckWhen fun t => isKnown t.orderId :=
  rfl

/-- The trades that are ready are pending, not in the books, and their orders are known. -/
theorem mem_readyWhen {told : Trade → Bool} :
    t ∈ r.readyWhen told ↔ t ∈ r.pending.toList ∧ ¬r.isApplied t.key = true ∧ told t = true := by
  unfold readyWhen
  rw [List.mem_filter, Bool.and_eq_true, Bool.not_eq_true', Bool.not_eq_true]

/-- The same, where what is known does not change in the course of the look. -/
theorem mem_ready :
    t ∈ r.ready isKnown ↔
      t ∈ r.pending.toList ∧ ¬r.isApplied t.key = true ∧ isKnown t.orderId = true :=
  mem_readyWhen

/-- Applying pending trades with distinct new keys books one after another.  The pending trades can
be put aside meanwhile, as `recheck` does.  The induction is on the trades to be applied, and each
of them leaves the keys of the others new. -/
theorem steps_of_applyAll {aside : Pending} (ts : List Trade) :
    ∀ {r s : Reconciler} {es : List Event},
      (∀ t ∈ ts, t ∈ r.pending.toList ∧ ¬r.isApplied t.key = true) → (ts.map Trade.key).Nodup →
      { r with pending := aside }.applyAll .live ts = ⟨es, .ok s⟩ →
      ∃ q, Steps r [] es q ∧ s = { q with pending := aside } ∧ q.pending = r.pending ∧
        ∀ key, q.isApplied key = true ↔ key ∈ ts.map Trade.key ∨ r.isApplied key = true := by
  induction ts with
  | nil =>
      intro r s es _ _ h
      obtain ⟨rfl, rfl⟩ := Journal.pure_eq_ok h
      exact ⟨r, .none, rfl, rfl, by simp⟩
  | cons t ts ih =>
      intro r s es hpending hnodup h
      rw [applyAll, List.foldlM_cons] at h
      obtain ⟨first, r', rest, hone, hrest, rfl⟩ := Journal.bind_eq_ok.mp h
      obtain ⟨gain?, position, hposition, rfl, rfl⟩ := apply_eq_ok hone
      obtain ⟨hmem, hfresh⟩ := hpending t (List.mem_cons_self ..)
      rw [List.map_cons, List.nodup_cons] at hnodup
      obtain ⟨hnew, hnodup⟩ := hnodup
      -- The key of `t` is new, so the trades behind it are still not in the books.
      have hpending' : ∀ u ∈ ts, u ∈ (r.book t position).pending.toList ∧
          ¬(r.book t position).isApplied u.key = true := by
        intro u hu
        obtain ⟨humem, hufresh⟩ := hpending u (List.mem_cons_of_mem t hu)
        exact ⟨humem, not_isApplied_book hnew hu hufresh⟩
      obtain ⟨q, hsteps, rfl, hq, hkeys⟩ := ih hpending' hnodup hrest
      refine ⟨q, (Step.released t gain? position hfresh hmem hposition).steps.trans hsteps, rfl, hq,
        fun key => ?_⟩
      rw [hkeys, isApplied_book, List.map_cons, List.mem_cons]
      tauto

/-- Applying trades announces each of them, in their order, and does not announce the position,
which is left to the caller. -/
theorem announced_of_applyAll (ts : List Trade) : ∀ {r : Reconciler} {es : List Event},
    r.applyAll origin ts = ⟨es, .ok s⟩ → appliedIn es = ts ∧ ∀ e ∈ es, e.kind ≠ .position := by
  induction ts with
  | nil =>
      intro r es h
      obtain ⟨rfl, -⟩ := Journal.pure_eq_ok h
      exact ⟨rfl, by simp⟩
  | cons t ts ih =>
      intro r es h
      rw [applyAll, List.foldlM_cons] at h
      obtain ⟨first, r', rest, hone, hrest, rfl⟩ := Journal.bind_eq_ok.mp h
      obtain ⟨gain?, position, -, rfl, rfl⟩ := apply_eq_ok hone
      obtain ⟨happlied, hkinds⟩ := ih hrest
      refine ⟨by rw [appliedIn_append, appliedIn_announcements, happlied]; rfl, fun e he => ?_⟩
      rcases List.mem_append.mp he with he | he
      · exact kind_announcements e he
      · exact hkinds e he

/-- The pending trades that stay pending after a look at them. -/
def waiting (r : Reconciler) (isKnown : UInt64 → Bool) : Pending :=
  r.pending.discard fun t => r.isApplied t.key || isKnown t.orderId

/-- The trades that stay pending are not in the books, and their orders are not known. -/
theorem mem_waitingWhen {told : Trade → Bool} :
    t ∈ (r.waitingWhen told).toList ↔
      t ∈ r.pending.toList ∧ ¬r.isApplied t.key = true ∧ ¬told t = true := by
  unfold waitingWhen
  rw [Pending.mem_toList_discard, Bool.or_eq_false_iff, Bool.not_eq_true, Bool.not_eq_true]

/-- The same, where what is known does not change in the course of the look. -/
theorem mem_waiting :
    t ∈ (r.waiting isKnown).toList ↔
      t ∈ r.pending.toList ∧ ¬r.isApplied t.key = true ∧ ¬isKnown t.orderId = true :=
  mem_waitingWhen

/-- All pending trades are ready if they are new and their orders are known. -/
theorem ready_of_forall (h : ∀ t ∈ r.pending.toList, ¬r.isApplied t.key = true ∧
    isKnown t.orderId = true) : r.ready isKnown = r.pending.toList := by
  rw [ready, List.filter_eq_self]
  intro t ht
  rw [Bool.and_eq_true, Bool.not_eq_true', ← Bool.not_eq_true]
  exact h t ht

/-- No trade stays pending if all the orders are known. -/
theorem waiting_of_forall (h : ∀ t ∈ r.pending.toList, isKnown t.orderId = true) :
    r.waiting isKnown = .empty r.pending.symbol := by
  refine Pending.eq_empty_of_toList (List.eq_nil_iff_forall_not_mem.mpr fun t ht => ?_)
  obtain ⟨hmem, -, hunknown⟩ := mem_waiting.mp ht
  exact hunknown (h t hmem)

/-- What looking at the pending trades can lead to: the events, whether a trade was applied, and the
reconciler afterwards. -/
inductive Recheck (r : Reconciler) (told : Trade → Bool) : List Event → Bool → Reconciler → Prop
  /-- No trade is ready. -/
  | idle (h : r.readyWhen told = []) :
      Recheck r told [] false { r with pending := r.waitingWhen told }
  /-- Some trades are ready. -/
  | booked (front : List Event) (s : Reconciler) (ready : r.readyWhen told ≠ [])
      (apply : { r with pending := r.waitingWhen told }.applyAll .live (r.readyWhen told) =
        ⟨front, .ok s⟩) :
      Recheck r told (front ++ [.position s.snapshot]) true s

section told

variable {told : Trade → Bool}

/-- A look finds nothing to do, or applies what is ready and announces the position once.
Source: `process`. -/
theorem recheckWhen_eq_ok (h : r.recheckWhen told = ⟨es, .ok (isNew, s)⟩) :
    r.Recheck told es isNew s := by
  unfold recheckWhen at h
  by_cases hready : (r.readyWhen told).isEmpty = true
  · rw [if_pos hready] at h
    obtain ⟨rfl, hs⟩ := Journal.pure_eq_ok h
    obtain ⟨rfl, rfl⟩ := Prod.mk.inj hs
    exact .idle (List.isEmpty_iff.mp hready)
  · rw [if_neg hready] at h
    obtain ⟨first, r', rest, hall, hannounce, rfl⟩ := Journal.bind_eq_ok.mp h
    obtain ⟨rfl, hs⟩ := announcePosition_eq_ok hannounce
    obtain ⟨rfl, rfl⟩ := Prod.mk.inj hs
    exact .booked first r' (fun hnil => hready (List.isEmpty_iff.mpr hnil)) hall

/-- **Looking at the pending trades is made of small steps.**  Those stay pending that are not in
the books and whose orders are not known.  The forgetting comes last here, although the pending
trades are put aside first: it makes no difference, as no step in between looks at them. -/
theorem steps_of_recheckWhen (h : r.recheckWhen told = ⟨es, .ok (isNew, s)⟩) :
    Steps r [] es s ∧ s.pending = r.waitingWhen told := by
  -- What is discarded was in the books before, or is ready.
  have hleaves : ∀ u ∈ r.pending.toList, (r.isApplied u.key || told u) = true →
      r.isApplied u.key = true ∨ u ∈ r.readyWhen told := by
    intro u hu hleave
    by_cases hfresh : r.isApplied u.key = true
    · exact .inl hfresh
    · have hknown : told u = true := by simpa [hfresh] using hleave
      exact .inr (mem_readyWhen.mpr ⟨hu, hfresh, hknown⟩)
  cases recheckWhen_eq_ok h with
  | idle hnone =>
      refine ⟨(Step.forgotten _ fun u hu hleave => ?_).steps, rfl⟩
      rw [hnone] at hleaves
      exact (hleaves u hu hleave).resolve_right List.not_mem_nil
  | booked front _ _ hall =>
      have hnodup : ((r.readyWhen told).map Trade.key).Nodup :=
        r.pending.nodup_keys.sublist (List.filter_sublist.map _)
      obtain ⟨q, hsteps, rfl, hq, hkeys⟩ := steps_of_applyAll (r.readyWhen told)
        (fun u hu => ⟨(mem_readyWhen.mp hu).1, (mem_readyWhen.mp hu).2.1⟩) hnodup hall
      refine ⟨?_, rfl⟩
      unfold waitingWhen
      rw [← hq] at hleaves ⊢
      refine hsteps.trans ((Step.forgotten _ fun u hu hleave => ?_).steps.snoc .announced)
      rw [hkeys]
      exact ((hleaves u hu hleave).imp_right List.mem_map_of_mem).symm

/-- Looking at the pending trades applies those that are ready. -/
theorem appliedIn_of_recheckWhen (h : r.recheckWhen told = ⟨es, .ok (isNew, s)⟩) :
    appliedIn es = r.readyWhen told := by
  cases recheckWhen_eq_ok h with
  | idle hnone => exact hnone.symm
  | booked front _ _ hall =>
      rw [appliedIn_append, (announced_of_applyAll _ hall).1, appliedIn_position, List.append_nil]

end told

/-- What a look can lead to, where what is known does not change in its course. -/
theorem recheck_eq_ok (h : r.recheck isKnown = ⟨es, .ok (isNew, s)⟩) :
    r.Recheck (fun t => isKnown t.orderId) es isNew s :=
  recheckWhen_eq_ok h

/-- The small steps of a look, where what is known does not change in its course. -/
theorem steps_of_recheck (h : r.recheck isKnown = ⟨es, .ok (isNew, s)⟩) :
    Steps r [] es s ∧ s.pending = r.waiting isKnown :=
  steps_of_recheckWhen h

/-- The trades that a look applies, where what is known does not change in its course. -/
theorem appliedIn_of_recheck (h : r.recheck isKnown = ⟨es, .ok (isNew, s)⟩) :
    appliedIn es = r.ready isKnown :=
  appliedIn_of_recheckWhen h

end Reconciler

end CostBasis
