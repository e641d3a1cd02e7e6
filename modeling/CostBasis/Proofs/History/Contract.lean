import CostBasis.Proofs.History.SameSet
import CostBasis.Proofs.Position.Exact

/-!
# The contract of an answer

An answer is found by sorting, by leaving out what repeats a key, and by cutting off what is beyond
the limit.  What it has to be can be said without this: it is in the order of time and number, it
has each key once, everything in it was asked for, and of every key that was asked for it has the
earliest trade.  A history may have several trades of one key and one time, and of these it is the
first one.

This leaves no choice, so the contract determines the answer.  A limit cuts the answer short, and
changes nothing else.

Main statements: `Answers.unique`, `answers_selectAll`, `select_meets_contract`.
-/

namespace CostBasis

namespace Trade

variable {t u : Trade} {ts : List Trade} {P : Trade → Prop}

/-- The order of time and number. -/
def Before (t u : Trade) : Prop := t.time < u.time ∨ t.time = u.time ∧ t.id < u.id

instance (t u : Trade) : Decidable (t.Before u) :=
  inferInstanceAs (Decidable (t.time < u.time ∨ t.time = u.time ∧ t.id < u.id))

/-- The order of time and number is strict: of two trades one at most is before the other. -/
theorem Before.not_before (h : t.Before u) : ¬u.Before t := by
  rcases h with hlt | ⟨heq, hlt⟩
  · rintro (hlt' | ⟨heq, -⟩)
    · exact Int64.lt_irrefl (Int64.lt_trans hlt hlt')
    · rw [heq] at hlt
      exact Int64.lt_irrefl hlt
  · rintro (hlt' | ⟨-, hlt'⟩)
    · rw [heq] at hlt'
      exact Int64.lt_irrefl hlt'
    · exact UInt64.lt_irrefl _ (UInt64.lt_trans hlt hlt')

/-- The order of trades of one symbol looks at time and number; the symbol, which is looked at last,
does not tell them apart. -/
theorem notAfter_iff_of_symbol_eq (h : t.symbol = u.symbol) :
    notAfter t u = true ↔ t.time < u.time ∨ t.time = u.time ∧ t.id ≤ u.id := by
  have hcompare : compareTime t u =
      (compare t.time u.time).then ((compare t.id u.id).then (compare t.symbol u.symbol)) := rfl
  have hlt : compare t.time u.time = .lt ↔ t.time < u.time :=
    Std.compare_eq_lt (a := t.time.milliseconds)
  have hself : compare u.symbol u.symbol = .eq := Std.ReflCmp.compare_self
  rw [notAfter, hcompare, h, hself, Ordering.then_eq, Ordering.isLE_then_iff_or, Std.isLE_compare,
    Std.LawfulEqCmp.compare_eq_iff_eq, hlt]

/-- The order of trades with one key looks at the time. -/
theorem notAfter_iff_of_key_eq (h : t.key = u.key) : notAfter t u = true ↔ t.time ≤ u.time := by
  obtain ⟨hsymbol, hid⟩ := TradeKey.mk.inj h
  refine ⟨time_le_of_notAfter, fun hle => (notAfter_iff_of_symbol_eq hsymbol).mpr ?_⟩
  by_cases htime : t.time = u.time
  · exact .inr ⟨htime, hid ▸ UInt64.le_refl _⟩
  · exact .inl (Int64.lt_of_le_of_ne hle fun heq => htime (congrArg Instant.mk heq))

/-- Of two trades of one symbol with different keys, the one that may stand first is before the
other one: their numbers differ, and so the order is strict. -/
theorem before_of_notAfter (hsymbol : t.symbol = u.symbol) (hkey : t.key ≠ u.key)
    (h : notAfter t u = true) : t.Before u := by
  rcases (notAfter_iff_of_symbol_eq hsymbol).mp h with hlt | ⟨heq, hle⟩
  · exact .inl hlt
  · refine .inr ⟨heq, UInt64.lt_of_le_of_ne hle fun hid => hkey ?_⟩
    rw [key, key, hsymbol, hid]

/-- The first trade of those that are left is the first one of those that are left and have the
property. -/
theorem IsFirst.of_filter {p : Trade → Bool} (h : IsFirst P (ts.filter p) t) :
    IsFirst (fun u => p u = true ∧ P u) ts t := by
  obtain ⟨before, rest, hsplit, ht, hbefore, hrest⟩ := h
  obtain ⟨front, back, rfl, rfl, hback⟩ := List.filter_eq_append_iff.mp hsplit
  obtain ⟨skipped, back, rfl, hskipped, hp, rfl⟩ := List.filter_eq_cons_iff.mp hback
  refine ⟨front ++ skipped, back, (List.append_assoc ..).symm, ⟨hp, ht⟩, ?_, ?_⟩
  · rintro u hu ⟨hpu, hPu⟩
    rcases List.mem_append.mp hu with hu | hu
    · exact hbefore u (List.mem_filter.mpr ⟨hu, hpu⟩) hPu
    · exact absurd hpu (hskipped u hu)
  · rintro u hu ⟨hpu, hPu⟩
    exact hrest u (List.mem_filter.mpr ⟨hu, hpu⟩) hPu

/-- Where no key comes twice, a trade is the only one with its key.  So the key finds it. -/
theorem filter_key_eq_singleton (hnodup : (ts.map key).Nodup) (ht : t ∈ ts) :
    ts.filter (·.key = t.key) = [t] := by
  obtain ⟨before, rest, rfl⟩ := List.append_of_mem ht
  rw [List.map_append, List.map_cons, List.nodup_middle, List.nodup_cons, List.mem_append,
    not_or] at hnodup
  obtain ⟨⟨hbefore, hrest⟩, -⟩ := hnodup
  rw [List.filter_append, List.filter_cons_of_pos (by simp), List.filter_eq_nil_iff.mpr,
    List.filter_eq_nil_iff.mpr]
  · rfl
  · intro u hu hkey
    exact hrest (of_decide_eq_true hkey ▸ List.mem_map_of_mem hu)
  · intro u hu hkey
    exact hbefore (of_decide_eq_true hkey ▸ List.mem_map_of_mem hu)

end Trade

namespace TradeQuery

variable {q : TradeQuery} {symbol : String} {ts : List Trade} {t u : Trade}

/-! ## What is asked for -/

/-- A trade is asked for: it is of the symbol, it lies in the window, with both ends in it, and its
number is higher than the cursor. -/
structure Wants (q : TradeQuery) (symbol : String) (t : Trade) : Prop where
  symbol : t.symbol = symbol
  start : ∀ start ∈ q.window.start, start ≤ t.time
  stop : ∀ stop ∈ q.window.stop, t.time ≤ stop
  cursor : ∀ id ∈ q.afterId, id < t.id

instance (q : TradeQuery) (symbol : String) (t : Trade) : Decidable (q.Asks symbol t) :=
  inferInstanceAs (Decidable (t.symbol = symbol ∧ q.accepts t = true))

/-- What the filter lets through is what is asked for, spelled out.
Source: `matches` of `TradeQueryOptions`. -/
theorem asks_iff_wants : q.Asks symbol t ↔ q.Wants symbol t := by
  have hcursor : (q.afterId.all fun id => decide (id < t.id)) = true ↔
      ∀ id ∈ q.afterId, id < t.id := by
    cases q.afterId <;> simp
  rw [Asks, accepts, Bool.and_eq_true_iff, Window.contains_iff, hcursor]
  exact ⟨fun h => ⟨h.1, h.2.1.1, h.2.1.2, h.2.2⟩, fun h => ⟨h.symbol, ⟨h.start, h.stop⟩, h.cursor⟩⟩

instance (q : TradeQuery) (symbol : String) (t : Trade) : Decidable (q.Wants symbol t) :=
  decidable_of_iff _ asks_iff_wants

/-- Of the trades with its key that are asked for, this one has the smallest time, and among those
with the smallest time it comes first in the list. -/
def Earliest (q : TradeQuery) (symbol : String) (ts : List Trade) (u : Trade) : Prop :=
  ∃ before rest, ts = before ++ u :: rest ∧ q.Wants symbol u ∧
    (∀ v ∈ before, q.Wants symbol v → v.key = u.key → u.time < v.time) ∧
    ∀ v ∈ rest, q.Wants symbol v → v.key = u.key → u.time ≤ v.time

/-- The earliest trade of a key is the first one of the key in the order of time.  Trades with one
key are told apart by that order only if their times differ. -/
theorem earliest_iff_isFirst :
    q.Earliest symbol ts u ↔ Trade.IsFirst (fun v => q.Wants symbol v ∧ v.key = u.key) ts u := by
  have hbefore {v : Trade} (hkey : v.key = u.key) :
      ¬Trade.notAfter v u = true ↔ u.time < v.time := by
    rw [Trade.notAfter_iff_of_key_eq hkey]
    exact Int64.not_le
  constructor
  · rintro ⟨before, rest, hsplit, hu, hearlier, hlater⟩
    exact ⟨before, rest, hsplit, ⟨hu, rfl⟩,
      fun v hv h => (hbefore h.2).mpr (hearlier v hv h.1 h.2),
      fun v hv h => (Trade.notAfter_iff_of_key_eq h.2.symm).mpr (hlater v hv h.1 h.2)⟩
  · rintro ⟨before, rest, hsplit, ⟨hu, -⟩, hearlier, hlater⟩
    exact ⟨before, rest, hsplit, hu,
      fun v hv hwants hkey => (hbefore hkey).mp (hearlier v hv ⟨hwants, hkey⟩),
      fun v hv hwants hkey => Trade.time_le_of_notAfter (hlater v hv ⟨hwants, hkey⟩)⟩

/-- There is one earliest trade of a key at most. -/
theorem Earliest.unique (h : q.Earliest symbol ts t) (h' : q.Earliest symbol ts u)
    (hkey : t.key = u.key) : t = u := by
  rw [earliest_iff_isFirst] at h h'
  rw [hkey] at h
  exact h.unique h'

/-! ## The contract -/

/-- What an answer without a limit has to be. -/
structure Answers (q : TradeQuery) (symbol : String) (ts answer : List Trade) : Prop where
  /-- The order is that of time and number. -/
  sorted : answer.Pairwise Trade.Before
  /-- No key comes twice. -/
  nodup : (answer.map Trade.key).Nodup
  /-- The answer has nothing but trades of the history that are asked for. -/
  wanted : ∀ t ∈ answer, t ∈ ts ∧ q.Wants symbol t
  /-- Of each key that is asked for it has one trade, which is the earliest one. -/
  earliest : ∀ t ∈ ts, q.Wants symbol t →
    ∃ u, answer.filter (·.key = t.key) = [u] ∧ q.Earliest symbol ts u

namespace Answers

variable {answer answer' : List Trade}

/-- What is in an answer is the earliest trade of its key. -/
theorem earliest_of_mem (h : q.Answers symbol ts answer) (ht : t ∈ answer) :
    q.Earliest symbol ts t := by
  obtain ⟨hts, hwants⟩ := h.wanted t ht
  obtain ⟨u, hfilter, hu⟩ := h.earliest t hts hwants
  have hmem : t ∈ answer.filter (·.key = t.key) := List.mem_filter.mpr ⟨ht, by simp⟩
  rw [hfilter, List.mem_singleton] at hmem
  exact hmem ▸ hu

/-- Two lists that meet the contract have the same trades.  For a trade of the first one, the
contract of the second one says that it has the earliest trade of this key, and there is only
one. -/
theorem subset (h : q.Answers symbol ts answer) (h' : q.Answers symbol ts answer') :
    answer ⊆ answer' := by
  intro t ht
  obtain ⟨hts, hwants⟩ := h.wanted t ht
  obtain ⟨u, hfilter, hu⟩ := h'.earliest t hts hwants
  have hmem : u ∈ answer'.filter (·.key = t.key) := hfilter ▸ List.mem_singleton_self u
  obtain ⟨hu', hkey⟩ := List.mem_filter.mp hmem
  rwa [(h.earliest_of_mem ht).unique hu (of_decide_eq_true hkey).symm]

/-- **The contract leaves no choice.**  Two lists that meet it have the same trades, each of them
once, and there is one way to put them in a strict order. -/
theorem unique (h : q.Answers symbol ts answer) (h' : q.Answers symbol ts answer') :
    answer = answer' := by
  have hperm : answer.Perm answer' :=
    (List.perm_ext_iff_of_nodup h.nodup.of_map h'.nodup.of_map).mpr fun _ =>
      ⟨fun ht => h.subset h' ht, fun ht => h'.subset h ht⟩
  exact hperm.eq_of_pairwise (fun _ _ _ _ hbefore hbefore' => absurd hbefore' hbefore.not_before)
    h.sorted h'.sorted

end Answers

/-! ## The calculation meets the contract -/

/-- What is taken of a key is its first trade: none before it has the key.  The induction is on the
list, over the keys that have been seen. -/
theorem split_of_mem_firstOfKeys (ts : List Trade) : ∀ {seen : Std.ExtTreeSet TradeKey},
    t ∈ firstOfKeys seen ts →
      ∃ before rest, ts = before ++ t :: rest ∧ ∀ u ∈ before, u.key ≠ t.key := by
  induction ts with
  | nil =>
      intro seen ht
      exact absurd ht List.not_mem_nil
  | cons v ts ih =>
      intro seen ht
      rw [firstOfKeys] at ht
      split at ht
      next hseen =>
        have hnew := key_notMem_of_mem_firstOfKeys ts ht
        obtain ⟨before, rest, rfl, hbefore⟩ := ih ht
        refine ⟨v :: before, rest, rfl, fun u hu => ?_⟩
        rcases List.mem_cons.mp hu with rfl | hu
        · exact fun heq => hnew (heq ▸ hseen)
        · exact hbefore u hu
      next =>
        rcases List.mem_cons.mp ht with rfl | ht
        · exact ⟨[], ts, rfl, fun _ hu => absurd hu List.not_mem_nil⟩
        · have hnew := key_notMem_of_mem_firstOfKeys ts ht
          obtain ⟨before, rest, rfl, hbefore⟩ := ih ht
          refine ⟨v :: before, rest, rfl, fun u hu => ?_⟩
          rcases List.mem_cons.mp hu with rfl | hu
          · exact fun heq => hnew (heq ▸ Std.ExtTreeSet.mem_insert_self)
          · exact hbefore u hu

/-- What is in an answer is the earliest trade of its key in the history.  It is the first one of
its key in the sorted list, and so it is the first one in the order of time. -/
theorem earliest_of_mem_selectAll (h : t ∈ q.selectAll symbol ts) : q.Earliest symbol ts t := by
  obtain ⟨before, rest, hsorted, hbefore⟩ := split_of_mem_firstOfKeys _ h
  have hfirst : Trade.IsFirst (fun u => u.key = t.key) _ t :=
    Trade.isFirst_of_sortByTime hsorted hbefore rfl
  have hasks : (fun u => (u.symbol == symbol && q.accepts u) = true ∧ u.key = t.key) =
      fun u => q.Wants symbol u ∧ u.key = t.key := by
    funext u
    rw [← asks_iff_wants, Asks, Bool.and_eq_true_iff, beq_iff_eq]
  rw [earliest_iff_isFirst, ← hasks]
  exact hfirst.of_filter

/-- **The calculation meets the contract.**
Source: `select_trades`, which filters, sorts, drops repeats and truncates. -/
theorem answers_selectAll (q : TradeQuery) (symbol : String) (ts : List Trade) :
    q.Answers symbol ts (q.selectAll symbol ts) where
  sorted := by
    have hkeys : (q.selectAll symbol ts).Pairwise fun t u => t.key ≠ u.key :=
      List.pairwise_map.mp (nodup_keys_selectAll ts)
    refine ((pairwise_selectAll ts).and hkeys).imp_of_mem fun {t u} ht hu h => ?_
    obtain ⟨hnotAfter, hkey⟩ := h
    have hsymbol : t.symbol = u.symbol :=
      (mem_of_mem_selectAll ht).2.1.trans (mem_of_mem_selectAll hu).2.1.symm
    exact Trade.before_of_notAfter hsymbol hkey hnotAfter
  nodup := nodup_keys_selectAll ts
  wanted t ht := by
    obtain ⟨hts, hasks⟩ := mem_of_mem_selectAll ht
    exact ⟨hts, asks_iff_wants.mp hasks⟩
  earliest t ht hwants := by
    obtain ⟨u, hu, hkey, -⟩ := exists_mem_selectAll ht (asks_iff_wants.mpr hwants)
    refine ⟨u, ?_, earliest_of_mem_selectAll hu⟩
    rw [← hkey]
    exact Trade.filter_key_eq_singleton (nodup_keys_selectAll ts) hu

end TradeQuery

/-- **An answer meets its contract, and the contract determines the answer.**  Without a limit an
answer is in the order of time and number, has each key once, has nothing but trades of the history
that are asked for, and has of each key that is asked for the earliest trade, which is the first one
in the history where several have the smallest time; and only this list is like that.  With a limit
the answer is as much of the beginning of this list.
Source: `select_trades`; specification, section A7. -/
theorem select_meets_contract (q : TradeQuery) (symbol : String) (ts : List Trade) :
    (∀ answer, { q with limit := none }.select symbol ts = answer ↔ q.Answers symbol ts answer) ∧
      ∀ n, { q with limit := some n }.select symbol ts =
        ({ q with limit := none }.select symbol ts).take n := by
  have hmeets : q.Answers symbol ts ({ q with limit := none }.select symbol ts) :=
    TradeQuery.answers_selectAll q symbol ts
  refine ⟨fun answer => ⟨?_, hmeets.unique⟩, fun n => rfl⟩
  rintro rfl
  exact hmeets

/-- Three trades, two of them at one time. -/
def sampleOnce : List Trade := [
  sampleTrade 1 .buy 100 1 1,
  sampleTrade 2 .sell 103 1 1,
  { sampleTrade 3 .buy 99 1 1 with time := ⟨2000⟩ }]

/-- These trades in another order; and the second one has been reported once more, at another
price. -/
def sampleRepeats : List Trade := sampleOnce.reverse ++ [sampleTrade 2 .sell 104 1 1]

/-- Of the two reports of the second trade, which have one time, the one that comes first in the
history is answered. -/
theorem answers_sampleRepeats :
    (⟨.always, none, none⟩ : TradeQuery).Answers "BTCUSDT" sampleRepeats sampleOnce where
  sorted := by decide
  nodup := by decide
  wanted := by decide
  earliest := by
    have hfirst (i : Fin 3) :
        (⟨.always, none, none⟩ : TradeQuery).Earliest "BTCUSDT" sampleRepeats sampleOnce[i] :=
      ⟨sampleRepeats.take (2 - i), sampleRepeats.drop (3 - i), by revert i; decide,
        by revert i; decide, by revert i; decide, by revert i; decide⟩
    have hkey : ∀ t ∈ sampleRepeats,
        ∃ i : Fin 3, sampleOnce.filter (·.key = t.key) = [sampleOnce[i]] := by decide
    intro t ht _
    obtain ⟨i, hi⟩ := hkey t ht
    exact ⟨_, hi, hfirst i⟩

end CostBasis
