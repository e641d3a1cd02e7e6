import CostBasis.Proofs.History.Contract

/-!
# Reading a history page by page

A history can be read in pages: with a limit, and with the number of the last trade of each page as
the cursor of the next one, until a page is empty.

The cursor looks at numbers, while pages are cut in the order of time.  The two go together where no
trade has a higher number than another one and an earlier time.  Then the numbers ascend through the
answer, what lies behind the cursor is what has not been read, and the pages are the answer, cut
into pieces.

Main statements: `selectAll_behind`, `Pages.unique`, `pages_complete`.
-/

namespace CostBasis

namespace TradeQuery

variable {q : TradeQuery} {symbol : String} {ts : List Trade} {n : ℕ} {c : UInt64}

/-! ## Cursors -/

/-- Behind a cursor is what was asked for and has a higher number.  The cursor must not be behind
the one from which the reading starts. -/
theorem wants_behind {t : Trade} (hc : ∀ id ∈ q.afterId, id ≤ c) :
    { q with afterId := some c }.Wants symbol t ↔ q.Wants symbol t ∧ c < t.id := by
  constructor
  · intro h
    have hlt : c < t.id := h.cursor c rfl
    exact ⟨⟨h.symbol, h.start, h.stop, fun id hid => UInt64.lt_of_le_of_lt (hc id hid) hlt⟩, hlt⟩
  · rintro ⟨h, hlt⟩
    exact ⟨h.symbol, h.start, h.stop, fun id hid => Option.some.inj hid ▸ hlt⟩

/-- What lies behind a cursor is a part of the answer.  The earliest trade of a key stays the
earliest one, as all trades of a key are on one side of the cursor. -/
theorem selectAll_behind (hc : ∀ id ∈ q.afterId, id ≤ c) :
    { q with afterId := some c }.selectAll symbol ts =
      (q.selectAll symbol ts).filter fun t => decide (c < t.id) := by
  have hanswers := answers_selectAll q symbol ts
  refine (answers_selectAll _ symbol ts).unique
    ⟨hanswers.sorted.filter _, hanswers.nodup.sublist (List.filter_sublist.map _), ?_, ?_⟩
  · intro t ht
    obtain ⟨ht, hlt⟩ := List.mem_filter.mp ht
    obtain ⟨hts, hwants⟩ := hanswers.wanted t ht
    exact ⟨hts, (wants_behind hc).mpr ⟨hwants, of_decide_eq_true hlt⟩⟩
  · intro t ht hwants
    obtain ⟨hwants, hlt⟩ := (wants_behind hc).mp hwants
    obtain ⟨u, hu, before, rest, hsplit, huwants, hbefore, hrest⟩ := hanswers.earliest t ht hwants
    have hkey : u.key = t.key := by
      have hmem := List.mem_filter.mp (hu ▸ List.mem_singleton_self u)
      exact of_decide_eq_true hmem.2
    have hid : c < u.id := (TradeKey.mk.inj hkey).2 ▸ hlt
    refine ⟨u, ?_, before, rest, hsplit, (wants_behind hc).mpr ⟨huwants, hid⟩, ?_, ?_⟩
    · rw [List.filter_comm, hu, List.filter_cons_of_pos (by simpa using hid), List.filter_nil]
    · exact fun v hv hwants => hbefore v hv ((wants_behind hc).mp hwants).1
    · exact fun v hv hwants => hrest v hv ((wants_behind hc).mp hwants).1

/-! ## Numbers that go with the time -/

/-- Of two trades that are asked for, the one with the higher number is not earlier. -/
def Chronological (q : TradeQuery) (symbol : String) (ts : List Trade) : Prop :=
  ∀ t ∈ ts, ∀ u ∈ ts, q.Wants symbol t → q.Wants symbol u → t.id < u.id → t.time ≤ u.time

/-- What lies behind a cursor has numbers that go with the time, if all of it has. -/
theorem Chronological.behind (h : q.Chronological symbol ts) (hc : ∀ id ∈ q.afterId, id ≤ c) :
    { q with afterId := some c }.Chronological symbol ts := fun t ht u hu htwants huwants =>
  h t ht u hu ((wants_behind hc).mp htwants).1 ((wants_behind hc).mp huwants).1

/-- The numbers ascend through the answer.  This is what makes the last trade of a page a cursor. -/
theorem Chronological.ascending (h : q.Chronological symbol ts) :
    (q.selectAll symbol ts).Pairwise fun t u => t.id < u.id := by
  have hanswers := answers_selectAll q symbol ts
  have hkeys := List.pairwise_map.mp hanswers.nodup
  refine (hanswers.sorted.and hkeys).imp_of_mem fun {t u} ht hu hand => ?_
  obtain ⟨hbefore, hkey⟩ := hand
  obtain ⟨hts, htwants⟩ := hanswers.wanted t ht
  obtain ⟨hus, huwants⟩ := hanswers.wanted u hu
  rcases hbefore with hlt | ⟨-, hlt⟩
  · -- The earlier one cannot have the higher number, and they do not have the same.
    have hle : t.id ≤ u.id := by
      rw [← UInt64.not_lt]
      intro hid
      exact Int64.not_le.mpr hlt (h u hus t hts huwants htwants hid)
    refine UInt64.lt_of_le_of_ne hle fun hid => hkey ?_
    rw [Trade.key, Trade.key, htwants.symbol, huwants.symbol, hid]
  · exact hlt

/-! ## Pages -/

/-- The answer to a query, read in pages of at most `n` trades: the cursor of each page is the
number of the last trade of the page before it, and the first empty page ends the reading. -/
inductive Pages (n : ℕ) (symbol : String) (ts : List Trade) :
    TradeQuery → List (List Trade) → Prop
  | done {q : TradeQuery} (empty : { q with limit := some n }.select symbol ts = []) :
      Pages n symbol ts q []
  | turn {q : TradeQuery} {last : Trade} {pages : List (List Trade)}
      (cursor : ({ q with limit := some n }.select symbol ts).getLast? = some last)
      (rest : Pages n symbol ts { q with afterId := some last.id } pages) :
      Pages n symbol ts q ({ q with limit := some n }.select symbol ts :: pages)

/-- There is one way to read a history in pages, since each page determines the next cursor, and an
empty page ends the reading. -/
theorem Pages.unique {pages pages' : List (List Trade)} (h : Pages n symbol ts q pages)
    (h' : Pages n symbol ts q pages') : pages = pages' := by
  induction h generalizing pages' with
  | done empty =>
      cases h' with
      | done => rfl
      | turn hlast =>
          rw [empty] at hlast
          cases hlast
  | turn hlast _ ih =>
      cases h' with
      | done empty =>
          rw [empty] at hlast
          cases hlast
      | turn hlast' hrest =>
          obtain rfl := Option.some.inj (hlast.symm.trans hlast')
          rw [ih hrest]

/-- After a page, what lies behind the cursor is what is left of the answer.  The cursor is not
before the one that the query came with. -/
theorem selectAll_behind_page {last : Trade} (h : q.Chronological symbol ts)
    (hlast : ((q.selectAll symbol ts).take n).getLast? = some last) :
    (∀ id ∈ q.afterId, id ≤ last.id) ∧
      { q with afterId := some last.id }.selectAll symbol ts = (q.selectAll symbol ts).drop n := by
  obtain ⟨front, hpage⟩ := List.getLast?_eq_some_iff.mp hlast
  have hsplit : q.selectAll symbol ts = (front ++ [last]) ++ (q.selectAll symbol ts).drop n := by
    rw [← hpage, List.take_append_drop]
  have hmem : last ∈ q.selectAll symbol ts := by
    rw [hsplit]
    simp
  have hc : ∀ id ∈ q.afterId, id ≤ last.id := fun id hid =>
    UInt64.le_of_lt (((answers_selectAll q symbol ts).wanted last hmem).2.cursor id hid)
  have hascending := h.ascending
  rw [hsplit, List.pairwise_append, List.pairwise_append] at hascending
  obtain ⟨⟨-, -, hfront⟩, -, hrest⟩ := hascending
  refine ⟨hc, ?_⟩
  rw [selectAll_behind hc]
  nth_rewrite 1 [hsplit]
  -- The page does not lie behind its last trade, and what is left of the answer does.
  rw [List.filter_append, List.filter_eq_nil_iff.mpr, List.filter_eq_self.mpr, List.nil_append]
  · intro t ht
    exact decide_eq_true (hrest last (by simp) t ht)
  · intro t ht hlt
    have hlt := of_decide_eq_true hlt
    rcases List.mem_append.mp ht with ht | ht
    · exact UInt64.lt_irrefl _ (UInt64.lt_trans hlt (hfront t ht last (List.mem_singleton_self _)))
    · rw [List.mem_singleton.mp ht] at hlt
      exact UInt64.lt_irrefl _ hlt

/-- Reading in pages comes to an end, and the pages are the answer.  The induction is on the length
of what is left of the answer. -/
theorem exists_pages (hn : 0 < n) (h : q.Chronological symbol ts) :
    ∃ pages, Pages n symbol ts q pages ∧ pages.flatten = q.selectAll symbol ts := by
  -- Each page that is not empty leaves fewer trades behind the cursor.
  induction hlength : (q.selectAll symbol ts).length using Nat.strong_induction_on
    generalizing q with
  | _ length ih =>
    cases hlast : ((q.selectAll symbol ts).take n).getLast? with
    | none =>
        have hempty := List.getLast?_eq_none_iff.mp hlast
        have hnone := (List.take_eq_nil_iff.mp hempty).resolve_left hn.ne'
        exact ⟨[], .done hempty, hnone.symm⟩
    | some last =>
        obtain ⟨hc, hrest⟩ := selectAll_behind_page h hlast
        have hpage : 0 < length := by
          rw [← hlength, List.length_pos_iff]
          intro hnone
          rw [hnone, List.take_nil] at hlast
          cases hlast
        have hshorter : ((q.selectAll symbol ts).drop n).length < length := by
          rw [List.length_drop, hlength]
          omega
        obtain ⟨pages, hpages, hflatten⟩ :=
          ih _ hshorter (h.behind hc) (congrArg List.length hrest)
        refine ⟨_ :: pages, .turn hlast hpages, ?_⟩
        rw [List.flatten_cons, hflatten, hrest]
        exact List.take_append_drop n _

end TradeQuery

/-- **Reading page by page is complete.**  Let no trade that is asked for have a higher number than
another one and an earlier time.  Then reading the answer in pages of a positive length comes to an
end, in one way only, and the pages put together are the answer without a limit: nothing is left
out, and nothing comes twice.  The query may have a cursor from which the reading starts.
Source: the cursor and the limit of `TradeQueryOptions`. -/
theorem pages_complete {q : TradeQuery} {symbol : String} {ts : List Trade} {n : ℕ} (hn : 0 < n)
    (h : q.Chronological symbol ts) :
    ∃ pages, TradeQuery.Pages n symbol ts q pages ∧
      pages.flatten = { q with limit := none }.select symbol ts ∧
      ∀ pages', TradeQuery.Pages n symbol ts q pages' → pages' = pages := by
  obtain ⟨pages, hpages, hflatten⟩ := TradeQuery.exists_pages hn h
  exact ⟨pages, hpages, hflatten, fun pages' hpages' => hpages'.unique hpages⟩

/-- The sample history is read in pages of two trades.  The first page ends between two trades of
one time, with a trade that is repeated. -/
theorem pages_complete_sampleRepeats :
    (⟨.always, none, none⟩ : TradeQuery).Chronological "BTCUSDT" sampleRepeats ∧
      ∃ pages, TradeQuery.Pages 2 "BTCUSDT" sampleRepeats ⟨.always, none, none⟩ pages ∧
        pages.flatten = sampleOnce := by
  have h : (⟨.always, none, none⟩ : TradeQuery).Chronological "BTCUSDT" sampleRepeats := by
    intro t ht u hu _ _
    revert t u
    decide
  obtain ⟨pages, hpages, hflatten, -⟩ := pages_complete (n := 2) (by decide) h
  exact ⟨h, pages, hpages, hflatten.trans
    ((TradeQuery.answers_selectAll _ _ _).unique answers_sampleRepeats)⟩

end CostBasis
