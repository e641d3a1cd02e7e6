import CostBasis.Proofs.Replay.Division
import CostBasis.Proofs.Reconciler.Recovery
import CostBasis.Proofs.Report.Window

/-!
# Why there is no report

A replay may reject a trade for its place in the history, and it may stop because its position and
its sum have come apart.  A report shows neither: its replay begins anew, and takes trades that have
been put in order.  What is left is a window that ends before it starts, and trades of the window
that are wrong in themselves.  Of these the first one in the order of time decides, and where the
order does not tell trades apart, the first one in the list; for sorting leaves such trades as they
are.

A query to a history answers with trades of one symbol.  So a report about an answer is not refused
for the symbol of a trade either.

Main statements: `objection?_sortByTime_iff`, `report_refused_for_first_flaw`.
-/

namespace CostBasis

/-! ## Trades that are wrong in themselves -/

namespace Trade

variable {symbol : String} {last : Option Instant} {t u : Trade} {ts : List Trade}
  {P : Trade → Prop} {e e' : Rejection}

/-- A trade that cannot be accounted for on the market of a symbol, wherever it stands. -/
def IsUnfit (symbol : String) (t : Trade) : Prop :=
  t.symbol ≠ symbol ∨ t.quantity.toRat ≤ 0 ∨ t.price.toRat < 0 ∨ t.fee.toRat < 0

instance : Decidable (t.IsUnfit symbol) := inferInstanceAs (Decidable (_ ∨ _ ∨ _ ∨ _))

/-- A trade is unfit exactly if it may not be taken as the first one, where its place can be no
reason. -/
theorem isUnfit_iff : t.IsUnfit symbol ↔ ¬t.Follows symbol none := by
  constructor
  · rintro (other | nothing | price | fee) h
    · exact other h.symbol
    · exact nothing.not_gt h.quantity
    · exact price.not_ge h.price
    · exact fee.not_ge h.fee
  · intro h
    by_contra hfit
    simp only [IsUnfit, not_or, not_not, not_le, not_lt] at hfit
    obtain ⟨hsymbol, hquantity, hprice, hfee⟩ := hfit
    exact h ⟨hsymbol, hquantity, hprice, hfee, fun before hbefore => nomatch hbefore⟩

/-- A trade that may be taken somewhere is not unfit. -/
theorem Follows.not_isUnfit (h : t.Follows symbol last) : ¬t.IsUnfit symbol := by
  rw [isUnfit_iff, not_not]
  exact { h with time := fun before hbefore => nomatch hbefore }

/-- What is wrong with a trade that is not too early is wrong with it wherever it stands.  In a
sorted list no trade is too early. -/
theorem Objection.of_notEarlier (h : t.Objection symbol last e)
    (htime : ∀ before ∈ last, before ≤ t.time) : t.Objection symbol none e := by
  cases h with
  | foreign other => exact .foreign other
  | quantity same nothing => exact .quantity same nothing
  | price same something negative => exact .price same something negative
  | fee same something price negative => exact .fee same something price negative
  | chronology _ _ _ _ previous earlier =>
      exact absurd (htime _ previous) (Int64.not_le.mpr earlier)

/-- A trade is unfit if something is wrong with it wherever it stands. -/
theorem Objection.isUnfit (h : t.Objection symbol none e) : t.IsUnfit symbol :=
  isUnfit_iff.mpr h.not_follows

/-- There is one objection to a trade at most. -/
theorem Objection.unique (h : t.Objection symbol last e) (h' : t.Objection symbol last e') :
    e = e' := by
  cases h <;> cases h' <;> first | rfl | contradiction | (exfalso; linarith)

/-! ## The first unfit trade -/

/-- There is an objection to a sorted list with an unfit trade. -/
theorem exists_objection?_sortByTime (ht : t ∈ ts) (h : t.IsUnfit symbol) :
    ∃ e, Replay.objection? symbol none (sortByTime ts) = some e := by
  rw [← Option.ne_none_iff_exists']
  intro hnone
  obtain ⟨before, rest, hsorted⟩ := List.append_of_mem ((sortByTime_perm ts).mem_iff.mpr ht)
  have hadmits := (Replay.objection?_eq_none_iff _).mp hnone
  exact (hadmits before t rest hsorted).not_isUnfit h

/-- It is the objection to the first unfit trade of the list before it was sorted.  What stands
before it in the sorted list may be taken, so none of it is unfit. -/
theorem exists_isFirst_of_objection? (h : Replay.objection? symbol none (sortByTime ts) = some e) :
    ∃ t, IsFirst (IsUnfit symbol) ts t ∧ t.Objection symbol none e := by
  obtain ⟨before, t, rest, hsorted, hadmits, ht⟩ := Replay.exists_of_objection?_eq_some _ h
  have hpairwise : (before ++ t :: rest).Pairwise fun u v => notAfter u v = true :=
    hsorted ▸ pairwise_sortByTime ts
  have htime : ∀ last ∈ Replay.lastTime none before, last ≤ t.time := by
    intro last hlast
    rw [Replay.lastTime, Option.or_none, Option.mem_map] at hlast
    obtain ⟨u, hu, rfl⟩ := hlast
    exact time_le_of_notAfter ((List.pairwise_append.mp hpairwise).2.2 u
      (List.mem_of_getLast? hu) t (List.mem_cons_self ..))
  have ht := ht.of_notEarlier htime
  refine ⟨t, isFirst_of_sortByTime hsorted (fun u hu => ?_) ht.isUnfit, ht⟩
  obtain ⟨front, back, rfl⟩ := List.append_of_mem hu
  exact (hadmits front u back rfl).not_isUnfit

/-- **A sorted list is rejected for its first unfit trade.**  The order in which the trades were
before decides only between trades that the order of time does not tell apart. -/
theorem objection?_sortByTime_iff :
    Replay.objection? symbol none (sortByTime ts) = some e ↔
      ∃ t, IsFirst (IsUnfit symbol) ts t ∧ t.Objection symbol none e := by
  refine ⟨exists_isFirst_of_objection?, ?_⟩
  rintro ⟨t, hfirst, ht⟩
  obtain ⟨e', he'⟩ := exists_objection?_sortByTime hfirst.mem ht.isUnfit
  obtain ⟨u, hu, hue'⟩ := exists_isFirst_of_objection? he'
  obtain rfl := hfirst.unique hu
  rw [he', hue'.unique ht]

end Trade

/-! ## Refusals -/

/-- A window is inverted if it has two ends, of which the first is later than the last.
Source: `validate` of `TradeQueryOptions`. -/
theorem Window.inverted?_eq_some_iff {w : Window} {start stop : Instant} :
    w.inverted? = some (start, stop) ↔
      w.start = some start ∧ w.stop = some stop ∧ stop < start := by
  obtain ⟨_ | start', _ | stop'⟩ := w
  case some.some =>
    by_cases h : stop' < start'
    · simp only [inverted?, if_pos h, Option.some.injEq, Prod.mk.injEq]
      refine ⟨?_, fun ⟨hstart, hstop, _⟩ => ⟨hstart, hstop⟩⟩
      rintro ⟨rfl, rfl⟩
      exact ⟨rfl, rfl, h⟩
    · simp only [inverted?, if_neg h, Option.some.injEq]
      refine iff_of_false (fun h => nomatch h) ?_
      rintro ⟨rfl, rfl, hlt⟩
      exact h hlt
  all_goals simp [inverted?]

/-- A window is not inverted if its first end is not later than its last one, as far as it has
both. -/
theorem Window.inverted?_eq_none_iff {w : Window} :
    w.inverted? = none ↔ ∀ start ∈ w.start, ∀ stop ∈ w.stop, start ≤ stop := by
  rw [Option.eq_none_iff_forall_ne_some]
  constructor
  · intro h start hstart stop hstop
    by_contra hlt
    exact h (start, stop) (inverted?_eq_some_iff.mpr ⟨hstart, hstop, Int64.not_le.mp hlt⟩)
  · rintro h ⟨start, stop⟩ hinverted
    obtain ⟨hstart, hstop, hlt⟩ := inverted?_eq_some_iff.mp hinverted
    exact Int64.not_le.mpr hlt (h start hstart stop hstop)

namespace ReportRequest

variable {q : ReportRequest} {ts : List Trade} {e : ReportError}

/-- Why there is no report about a list of trades: the window ends before it starts, or it does not,
and then it is the first unfit trade of the window. -/
inductive Refuses (q : ReportRequest) (ts : List Trade) : ReportError → Prop
  | window {start stop : Instant} (hstart : q.window.start = some start)
      (hstop : q.window.stop = some stop) (inverted : stop < start) :
      Refuses q ts (.invertedWindow start stop)
  | trade {t : Trade} {reason : Rejection}
      (sensible : ∀ start ∈ q.window.start, ∀ stop ∈ q.window.stop, start ≤ stop)
      (first : Trade.IsFirst (Trade.IsUnfit q.terms.market.symbol) (q.inWindow ts) t)
      (objection : t.Objection q.terms.market.symbol none reason) :
      Refuses q ts (.rejected reason)

/-- A report is refused as its window is, or as a replay rejects what is in the window.  A new
replay never finds its position and its sum apart, so there is no third way.
Source: `calculate`. -/
theorem calculate_eq_error_iff (q : ReportRequest) (ts : List Trade) (e : ReportError) :
    q.calculate ts = .ok (.error e) ↔ q.Refuses ts e := by
  unfold calculate
  cases hwindow : q.window.inverted? with
  | some bounds =>
      obtain ⟨start, stop⟩ := bounds
      obtain ⟨hstart, hstop, hinverted⟩ := Window.inverted?_eq_some_iff.mp hwindow
      constructor
      · intro h
        obtain rfl := Except.error.inj (Except.ok.inj h)
        exact .window hstart hstop hinverted
      · rintro (⟨hstart', hstop', -⟩ | ⟨hsensible, -, -⟩)
        · rw [hstart] at hstart'
          rw [hstop] at hstop'
          obtain rfl := Option.some.inj hstart'
          obtain rfl := Option.some.inj hstop'
          rfl
        · cases hwindow.symm.trans (Window.inverted?_eq_none_iff.mpr hsensible)
  | none =>
      constructor
      · intro h
        obtain ⟨⟨answer, r⟩, happend, h⟩ := bind_eq_ok.mp h
        cases answer with
        | ok found =>
            obtain ⟨report, -, h⟩ := bind_eq_ok.mp h
            cases h
        | error reason =>
            obtain rfl := Except.error.inj (Except.ok.inj h)
            obtain ⟨hobjection, -⟩ := Replay.Reached.start.append_eq_error_iff.mp happend
            rw [scope_eq] at hobjection
            obtain ⟨t, hfirst, ht⟩ := Trade.objection?_sortByTime_iff.mp hobjection
            exact .trade (Window.inverted?_eq_none_iff.mp hwindow) hfirst ht
      · rintro (⟨hstart, hstop, hinverted⟩ | ⟨-, hfirst, ht⟩)
        · cases hwindow.symm.trans (Window.inverted?_eq_some_iff.mpr ⟨hstart, hstop, hinverted⟩)
        · have hobjection := Trade.objection?_sortByTime_iff.mpr ⟨_, hfirst, ht⟩
          rw [← scope_eq] at hobjection
          rw [Replay.append_of_objection (r := .start) hobjection]
          rfl

/-- There is a reason to refuse a report exactly if the window ends before it starts, or a trade of
the window is unfit. -/
theorem exists_refuses_iff (q : ReportRequest) (ts : List Trade) : (∃ e, q.Refuses ts e) ↔
    (∃ start ∈ q.window.start, ∃ stop ∈ q.window.stop, stop < start) ∨
      ∃ t ∈ q.inWindow ts, t.IsUnfit q.terms.market.symbol := by
  constructor
  · rintro ⟨_, ⟨hstart, hstop, hinverted⟩ | ⟨-, hfirst, ht⟩⟩
    · exact .inl ⟨_, hstart, _, hstop, hinverted⟩
    · exact .inr ⟨_, hfirst.mem, ht.isUnfit⟩
  · intro h
    by_cases hinverted : ∃ start ∈ q.window.start, ∃ stop ∈ q.window.stop, stop < start
    · obtain ⟨start, hstart, stop, hstop, hlt⟩ := hinverted
      exact ⟨_, .window hstart hstop hlt⟩
    · obtain ⟨t, ht, hunfit⟩ := h.resolve_left hinverted
      obtain ⟨reason, hreason⟩ := Trade.exists_objection?_sortByTime ht hunfit
      obtain ⟨u, hfirst, hu⟩ := Trade.objection?_sortByTime_iff.mp hreason
      refine ⟨_, .trade (fun start hstart stop hstop => ?_) hfirst hu⟩
      exact Int64.not_lt.mp fun hlt => hinverted ⟨start, hstart, stop, hstop, hlt⟩

/-- What is said of an unfit trade is that it is of another symbol, or that it has a flaw which is
not its place in the history. -/
theorem Refuses.cases_rejected {reason : Rejection} (h : q.Refuses ts (.rejected reason)) :
    (∃ t ∈ q.inWindow ts, t.symbol ≠ q.terms.market.symbol ∧
      reason = .foreign t.key q.terms.market.symbol) ∨
    ∃ t ∈ q.inWindow ts, ∃ flaw ≠ .chronology, reason = .flawed t.key flaw := by
  cases h with
  | @trade t _ _ hfirst ht =>
    cases ht with
    | foreign other => exact .inl ⟨t, hfirst.mem, other, rfl⟩
    | quantity => exact .inr ⟨t, hfirst.mem, .quantity, Flaw.noConfusion, rfl⟩
    | price => exact .inr ⟨t, hfirst.mem, .price, Flaw.noConfusion, rfl⟩
    | fee => exact .inr ⟨t, hfirst.mem, .fee, Flaw.noConfusion, rfl⟩
    | chronology _ _ _ _ previous => nomatch previous

end ReportRequest

/-- An answer has trades of the symbol that was asked for, and of no other one, from either kind of
source. -/
theorem TradeSource.symbol_of_mem_answer {source : TradeSource} {symbol : String}
    {query : TradeQuery} {us : List Trade} (h : (source.answer symbol query).run = .ok (.ok us)) :
    ∀ t ∈ us, t.symbol = symbol := by
  obtain ⟨ts, -, rfl⟩ := exists_of_answer_eq_ok h
  intro t ht
  have hall : t ∈ query.selectAll symbol ts := by
    unfold TradeQuery.select at ht
    cases hlimit : query.limit with
    | none => rwa [hlimit] at ht
    | some n =>
        rw [hlimit] at ht
        exact List.mem_of_mem_take ht
  exact (TradeQuery.mem_of_mem_selectAll hall).2.1

/-- **A report is refused for its window or for the first unfit trade in it.**  If the window has
two ends and starts after it ends, this is the error.  If not, there is an error exactly if some
trade of the window has another symbol, no positive quantity, or a negative price or fee.  The error
is then the objection to the first such trade in the order of time, where the symbol is looked at
before the quantity, the quantity before the price and the price before the fee.  That a trade is
out of order is never the error, in whatever order the trades are, and neither is that the position
and the sum of the quantities have come apart.  Nor is the symbol, if the trades are what a history
has answered to a query for the symbol of the market.
Source: `calculate` and `validate`. -/
theorem report_refused_for_first_flaw (q : ReportRequest) (ts : List Trade) :
    (∀ e, q.calculate ts = .ok (.error e) ↔ q.Refuses ts e) ∧
    ((∃ e, q.calculate ts = .ok (.error e)) ↔
      (∃ start ∈ q.window.start, ∃ stop ∈ q.window.stop, stop < start) ∨
        ∃ t ∈ q.inWindow ts, t.IsUnfit q.terms.market.symbol) ∧
    (∀ key, q.calculate ts ≠ .ok (.error (.rejected (.flawed key .chronology)))) ∧
    (∀ key base total, q.calculate ts ≠ .ok (.error (.rejected (.diverged key base total)))) ∧
    ∀ (source : TradeSource) (query : TradeQuery),
      (source.answer q.terms.market.symbol query).run = .ok (.ok ts) →
        ∀ e, q.calculate ts = .ok (.error e) →
          (∃ start stop, e = .invertedWindow start stop) ∨
            ∃ t ∈ ts, ∃ flaw ≠ .chronology, e = .rejected (.flawed t.key flaw) := by
  have herror := q.calculate_eq_error_iff ts
  refine ⟨herror, ?_, fun key h => ?_, fun key base total h => ?_, ?_⟩
  · rw [← q.exists_refuses_iff ts]
    exact exists_congr herror
  · obtain ⟨t, -, -, hreason⟩ | ⟨t, -, flaw, hflaw, hreason⟩ := ((herror _).mp h).cases_rejected
    · cases hreason
    · exact hflaw (Rejection.flawed.inj hreason).2.symm
  · obtain ⟨t, -, -, hreason⟩ | ⟨t, -, flaw, -, hreason⟩ := ((herror _).mp h).cases_rejected <;>
      cases hreason
  · intro source query hanswer e h
    cases e with
    | invertedWindow start stop => exact .inl ⟨start, stop, rfl⟩
    | rejected reason =>
        obtain ⟨t, ht, hother, -⟩ | ⟨t, ht, flaw, hflaw, rfl⟩ := ((herror _).mp h).cases_rejected
        · exact absurd (source.symbol_of_mem_answer hanswer t (List.mem_of_mem_filter ht)) hother
        · exact .inr ⟨t, List.mem_of_mem_filter ht, flaw, hflaw, rfl⟩

/-! ### Sample flaws -/

/-- Trades of a window in which three are unfit.  The first one in the order of time has a negative
fee, and so has a trade with the same stamp behind it, which has a negative price as well.  After
the window comes a trade without a quantity. -/
def sampleUnfit : List Trade := [
  sampleTrade 5 .buy 97 0 1,
  sampleTrade 4 .sell (-99) 3 1,
  sampleTrade 3 .sell 103 1 (-1),
  sampleTrade 3 .sell (-103) 1 (-1),
  sampleTrade 1 .buy 100 1 1]

/-- A history that has only the sale with the negative fee. -/
def sampleUnfitSource : TradeSource := .memory (.ofTrades [sampleTrade 3 .sell 103 1 (-1)] none)

/-- The report is refused for the negative fee, which is the first flaw in the order of time; and
one about an answer is refused for it as well. -/
theorem report_refused_for_first_flaw_sampleUnfit :
    sampleWindowRequest.calculate sampleUnfit =
        .ok (.error (.rejected (.flawed ⟨"BTCUSDT", 3⟩ .fee))) ∧
      ∃ ts e, (sampleUnfitSource.answer "BTCUSDT" (.since ⟨1000⟩)).run = .ok (.ok ts) ∧
        sampleRequest.calculate ts = .ok (.error e) ∧
        ((∃ start stop, e = .invertedWindow start stop) ∨
          ∃ t ∈ ts, ∃ flaw ≠ .chronology, e = .rejected (.flawed t.key flaw)) := by
  have hfirst : Trade.IsFirst (Trade.IsUnfit "BTCUSDT")
      (sampleWindowRequest.inWindow sampleUnfit) (sampleTrade 3 .sell 103 1 (-1)) :=
    ⟨[sampleTrade 4 .sell (-99) 3 1],
      [sampleTrade 3 .sell (-103) 1 (-1), sampleTrade 1 .buy 100 1 1], by decide +kernel,
      by decide +kernel, by decide +kernel, by decide +kernel⟩
  have hfee : (sampleTrade 3 .sell 103 1 (-1)).Objection "BTCUSDT" none
      (.flawed ⟨"BTCUSDT", 3⟩ .fee) :=
    .fee rfl (by decide +kernel) (by decide +kernel) (by decide +kernel)
  have hselect : (TradeQuery.since ⟨1000⟩).selectAll "BTCUSDT" [sampleTrade 3 .sell 103 1 (-1)] =
      [sampleTrade 3 .sell 103 1 (-1)] := by
    have hperm : ([sampleTrade 3 .sell 103 1 (-1)].filter fun t => t.symbol == "BTCUSDT").Perm
        [sampleTrade 3 .sell 103 1 (-1)] := by decide +kernel
    exact (TradeQuery.selectAll_of_perm hperm (by decide) (by decide)).trans (by decide +kernel)
  have hanswer : (sampleUnfitSource.answer "BTCUSDT" (.since ⟨1000⟩)).run =
      .ok (.ok [sampleTrade 3 .sell 103 1 (-1)]) :=
    TradeSource.answer_since_eq_ok.mpr ⟨_, rfl, hselect⟩
  obtain ⟨hrefuses, -⟩ := report_refused_for_first_flaw sampleWindowRequest sampleUnfit
  obtain ⟨-, hexists, -, -, hhistory⟩ :=
    report_refused_for_first_flaw sampleRequest [sampleTrade 3 .sell 103 1 (-1)]
  obtain ⟨e, he⟩ := hexists.mpr (.inr (by decide +kernel))
  exact ⟨(hrefuses _).mpr (.trade (by decide +kernel) hfirst hfee), _, e, hanswer, he,
    hhistory _ _ hanswer e he⟩

end CostBasis
