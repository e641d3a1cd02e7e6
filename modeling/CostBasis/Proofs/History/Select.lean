import CostBasis.History
import Mathlib

/-!
# What a history answers

An answer has each key once, and is in the order of time.  The order looks at the stamp of a trade,
which is its time with its key.  So it tells trades with different keys apart, and there is only one
way to put trades with distinct keys in order.  What the answer is then does not depend on the order
in which the history has its trades.  Trades that the order does not tell apart stay as they are, so
the first one in the order of time is the first of them in the history.

Main statements: `isFirst_of_sortByTime`, `nodup_keys_selectAll`, `selectAll_of_perm`.
-/

namespace CostBasis

/-! ## The order of time -/

/-- What the order of time looks at. -/
structure Stamp where
  time : Instant
  id : UInt64
  symbol : String
deriving DecidableEq

namespace Stamp

/-- Whether a trade with the stamp `a` may stand before one with the stamp `b`. -/
def notAfter (a b : Stamp) : Bool :=
  (compareLex (compareOn time) (compareLex (compareOn id) (compareOn symbol)) a b).isLE

/-- Stamps that the order does not tell apart are equal: it looks at the time, then at the number,
then at the symbol, and a stamp has nothing else. -/
theorem eq_of_notAfter {a b : Stamp} (h : a.notAfter b = true) (h' : b.notAfter a = true) :
    a = b := by
  have heq : compareLex (compareOn time) (compareLex (compareOn id) (compareOn symbol)) a b = .eq :=
    Std.OrientedCmp.isLE_antisymm h h'
  rw [compareLex_eq_eq, compareLex_eq_eq] at heq
  obtain ⟨htime, hid, hsymbol⟩ := heq
  cases a
  cases b
  simp_all [compareOn]

end Stamp

namespace Trade

instance : Std.TransCmp compareTime :=
  inferInstanceAs (Std.TransCmp
    (compareLex (compareOn time) (compareLex (compareOn id) (compareOn symbol))))

variable {t u : Trade} {ts us : List Trade} {P : Trade → Prop}

/-- The order of time is transitive, as sorting by it needs. -/
theorem notAfter_trans (t u v : Trade) (h : notAfter t u = true) (h' : notAfter u v = true) :
    notAfter t v = true :=
  Std.TransCmp.isLE_trans h h'

/-- Of any two trades one may stand before the other, which is the second thing that sorting
needs. -/
theorem notAfter_total (t u : Trade) : (notAfter t u || notAfter u t) = true := by
  have hswap : compareTime u t = (compareTime t u).swap := Std.OrientedCmp.eq_swap
  rw [notAfter, notAfter, hswap]
  cases compareTime t u <;> rfl

/-- The time of a trade with its key. -/
def stamp (t : Trade) : Stamp := ⟨t.time, t.id, t.symbol⟩

/-- Trades have the same stamp exactly if they have the same time and the same key.
Source: the comparison in `sort_trades`, which is by time, number and symbol. -/
theorem stamp_eq_iff : t.stamp = u.stamp ↔ t.time = u.time ∧ t.key = u.key := by
  simp [stamp, key, and_comm]

/-- Trades that the order does not tell apart have the same key.  So among trades with distinct keys
there are no ties. -/
theorem key_eq_of_notAfter (h : notAfter t u = true) (h' : notAfter u t = true) :
    t.key = u.key :=
  (stamp_eq_iff.mp (Stamp.eq_of_notAfter h h')).2

/-- A trade that may stand before another one is not later. -/
theorem time_le_of_notAfter (h : notAfter t u = true) : t.time ≤ u.time := by
  have htime : (compare t.time.milliseconds u.time.milliseconds).isLE = true :=
    (Ordering.isLE_then_iff_and.mp h).1
  show t.time.milliseconds ≤ u.time.milliseconds
  exact Std.isLE_compare.mp htime

/-- Sorting neither loses nor repeats a trade. -/
theorem sortByTime_perm (ts : List Trade) : (sortByTime ts).Perm ts := List.mergeSort_perm ..

/-- What has been sorted is in the order of time. -/
theorem pairwise_sortByTime (ts : List Trade) :
    (sortByTime ts).Pairwise fun t u => notAfter t u = true := by
  unfold sortByTime
  exact List.pairwise_mergeSort notAfter_trans notAfter_total ts

/-- Sorting leaves trades with the same stamp in the order in which they are.
Source: `sort_trades`, where the sort is a stable one. -/
theorem filter_stamp_sortByTime (ts : List Trade) (s : Stamp) :
    (sortByTime ts).filter (·.stamp = s) = ts.filter (·.stamp = s) := by
  have hsame : (ts.filter (·.stamp = s)).Pairwise fun t u => notAfter t u = true := by
    rw [List.pairwise_filter]
    refine List.pairwise_of_forall fun t u ht hu => ?_
    show t.stamp.notAfter u.stamp = true
    rw [of_decide_eq_true ht, of_decide_eq_true hu]
    exact Std.ReflCmp.isLE_rfl
  have hsublist : (ts.filter (·.stamp = s)).Sublist (sortByTime ts) :=
    List.sublist_mergeSort notAfter_trans notAfter_total hsame List.filter_sublist
  have hkept := hsublist.filter (·.stamp = s)
  rw [List.filter_filter] at hkept
  simp only [Bool.and_self] at hkept
  exact (hkept.eq_of_length (((sortByTime_perm ts).filter _).length_eq.symm)).symm

/-! ## The first trade in the order of time -/

/-- Of the trades of a list that have a property, this one is the first in the order of time.  Where
the order does not tell trades apart, it is the first one in the list. -/
def IsFirst (P : Trade → Prop) (ts : List Trade) (t : Trade) : Prop :=
  ∃ before rest, ts = before ++ t :: rest ∧ P t ∧ (∀ u ∈ before, P u → ¬notAfter u t = true) ∧
    ∀ u ∈ rest, P u → notAfter t u = true

/-- The first trade is one of the list. -/
theorem IsFirst.mem (h : IsFirst P ts t) : t ∈ ts := by
  obtain ⟨before, rest, rfl, -⟩ := h
  exact List.mem_append_right _ (List.mem_cons_self ..)

/-- There is one first trade at most: one of two would have to come both before and after the
other. -/
theorem IsFirst.unique (h : IsFirst P ts t) (h' : IsFirst P ts u) : t = u := by
  obtain ⟨before, rest, rfl, ht, hbefore, hrest⟩ := h
  obtain ⟨before', rest', heq, hu, hbefore', hrest'⟩ := h'
  -- If one of them came after the other, it would also have to come before it.
  rcases List.append_eq_append_iff.mp heq with ⟨middle, rfl, hmiddle⟩ | ⟨middle, rfl, hmiddle⟩
  · cases middle with
    | nil => exact (List.cons.inj hmiddle).1
    | cons v middle =>
        obtain ⟨rfl, rfl⟩ := List.cons.inj hmiddle
        exact absurd (hrest u (by simp) hu) (hbefore' t (by simp) ht)
  · cases middle with
    | nil => exact (List.cons.inj hmiddle).1.symm
    | cons v middle =>
        obtain ⟨rfl, rfl⟩ := List.cons.inj hmiddle
        exact absurd (hrest' t (by simp) ht) (hbefore u (by simp) hu)

/-- The first trade of a sorted list that has a property is the first one of the list before it was
sorted.  Between trades with the same stamp it is the sort being stable that decides. -/
theorem isFirst_of_sortByTime [DecidablePred P] {before rest : List Trade}
    (hsorted : sortByTime ts = before ++ t :: rest) (hbefore : ∀ u ∈ before, ¬P u) (ht : P t) :
    IsFirst P ts t := by
  have hpairwise : (before ++ t :: rest).Pairwise fun u v => notAfter u v = true :=
    hsorted ▸ pairwise_sortByTime ts
  obtain ⟨hrest, -⟩ := List.pairwise_cons.mp (List.pairwise_append.mp hpairwise).2.1
  -- No trade with the property is before it in the order of time.
  have hearliest : ∀ u ∈ ts, P u → notAfter t u = true := by
    intro u hu hPu
    rw [← (sortByTime_perm ts).mem_iff, hsorted, List.mem_append, List.mem_cons] at hu
    rcases hu with hu | rfl | hu
    · exact absurd hPu (hbefore u hu)
    · exact Std.ReflCmp.isLE_rfl
    · exact hrest u hu
  -- Those with its stamp have the same order in both lists.
  have hstable : (ts.filter (·.stamp = t.stamp)).filter P =
      t :: (rest.filter (·.stamp = t.stamp)).filter P := by
    rw [← filter_stamp_sortByTime, hsorted, List.filter_append, List.filter_append,
      List.filter_cons_of_pos (by simp), List.filter_cons_of_pos (by simpa using ht)]
    rw [List.filter_eq_nil_iff.mpr fun u hu => ?_, List.nil_append]
    simpa using hbefore u (List.mem_of_mem_filter hu)
  rw [List.filter_filter, List.filter_eq_cons_iff] at hstable
  obtain ⟨front, back, rfl, hfront, -, -⟩ := hstable
  refine ⟨front, back, rfl, ht, fun u hu hPu hle => ?_,
    fun u hu hPu => hearliest u (by simp [hu]) hPu⟩
  have hstamp : u.stamp = t.stamp := Stamp.eq_of_notAfter hle (hearliest u (by simp [hu]) hPu)
  exact hfront u hu (by simp [hPu, hstamp])

/-! ## Trades with distinct keys -/

/-- **There is one way to put trades with distinct keys in order.**  So what is sorted does not
depend on the order in which the trades come. -/
theorem sortByTime_eq_of_perm (hperm : ts.Perm us) (hnodup : (us.map key).Nodup)
    (hsorted : us.Pairwise fun t u => notAfter t u = true) : sortByTime ts = us := by
  have hall := (sortByTime_perm ts).trans hperm
  refine List.Perm.eq_of_pairwise ?_ (pairwise_sortByTime ts) hsorted hall
  intro t u ht hu h h'
  exact List.inj_on_of_nodup_map hnodup (hall.mem_iff.mp ht) hu (key_eq_of_notAfter h h')

end Trade

/-- An instant lies in a window if it is on the right side of each end that is given.  Both ends are
in the window. -/
theorem Window.contains_iff {w : Window} {t : Instant} :
    w.contains t = true ↔ (∀ start ∈ w.start, start ≤ t) ∧ ∀ stop ∈ w.stop, t ≤ stop := by
  obtain ⟨start, stop⟩ := w
  cases start <;> cases stop <;> simp [contains]

namespace TradeQuery

variable {q : TradeQuery} {symbol : String} {seen : Std.ExtTreeSet TradeKey}

/-! ## Each key once -/

/-- A key that has been seen does not come again.  The induction is on the list, and the keys that
have been seen become more. -/
theorem key_notMem_of_mem_firstOfKeys {t : Trade} (ts : List Trade) :
    ∀ {seen : Std.ExtTreeSet TradeKey}, t ∈ firstOfKeys seen ts → t.key ∉ seen := by
  induction ts with
  | nil =>
      intro seen ht
      exact absurd ht List.not_mem_nil
  | cons u ts ih =>
      intro seen ht
      rw [firstOfKeys] at ht
      split at ht
      · exact ih ht
      · next hnew =>
          rcases List.mem_cons.mp ht with rfl | ht
          · exact hnew
          · exact fun hmem => ih ht (Std.ExtTreeSet.mem_insert.mpr (.inr hmem))

/-- What is left after the repeats are dropped has each key once, whatever has been seen before. -/
theorem nodup_keys_firstOfKeys (ts : List Trade) :
    ∀ {seen : Std.ExtTreeSet TradeKey}, ((firstOfKeys seen ts).map Trade.key).Nodup := by
  induction ts with
  | nil =>
      intro seen
      exact List.nodup_nil
  | cons t ts ih =>
      intro seen
      rw [firstOfKeys]
      split
      · exact ih
      · rw [List.map_cons, List.nodup_cons]
        refine ⟨fun hmem => ?_, ih⟩
        obtain ⟨u, hu, hkey⟩ := List.mem_map.mp hmem
        exact key_notMem_of_mem_firstOfKeys ts hu (hkey ▸ Std.ExtTreeSet.mem_insert_self)

/-- Nothing is left out if no key comes twice and none has been seen before. -/
theorem firstOfKeys_eq_self (ts : List Trade) : ∀ {seen : Std.ExtTreeSet TradeKey},
    (ts.map Trade.key).Nodup → (∀ t ∈ ts, t.key ∉ seen) → firstOfKeys seen ts = ts := by
  induction ts with
  | nil =>
      intro seen _ _
      rfl
  | cons t ts ih =>
      intro seen hnodup hseen
      rw [List.map_cons, List.nodup_cons] at hnodup
      obtain ⟨hnew, hnodup⟩ := hnodup
      rw [firstOfKeys, if_neg (hseen t (List.mem_cons_self ..)), ih hnodup]
      intro u hu hmem
      rcases Std.ExtTreeSet.mem_insert.mp hmem with heq | hmem
      · exact hnew (Std.LawfulEqCmp.eq_of_compare heq ▸ List.mem_map_of_mem hu)
      · exact hseen u (List.mem_cons_of_mem t hu) hmem

/-! ## The answer -/

/-- **An answer has each key once**, however often a trade is there in the history.
Source: specification, section A7; the set `seen` in `select_trades`. -/
theorem nodup_keys_selectAll (ts : List Trade) :
    ((q.selectAll symbol ts).map Trade.key).Nodup :=
  nodup_keys_firstOfKeys _

/-- **The answer of a history that has these trades of the symbol**, in whatever order and with
trades of other symbols among them, is what the query accepts of them. -/
theorem selectAll_of_perm {ts us : List Trade}
    (hperm : (ts.filter fun t => t.symbol == symbol).Perm us) (hnodup : (us.map Trade.key).Nodup)
    (hsorted : us.Pairwise fun t u => Trade.notAfter t u = true) :
    q.selectAll symbol ts = us.filter q.accepts := by
  have hfilter : (ts.filter fun t => t.symbol == symbol && q.accepts t).Perm
      (us.filter q.accepts) := by
    simp only [Bool.and_comm (_ == symbol)]
    rw [← List.filter_filter]
    exact hperm.filter q.accepts
  have hsublist : (us.filter q.accepts).Sublist us := List.filter_sublist
  have hkeys := hnodup.sublist (hsublist.map Trade.key)
  rw [selectAll, Trade.sortByTime_eq_of_perm hfilter hkeys (hsorted.sublist hsublist),
    firstOfKeys_eq_self _ hkeys fun t _ => Std.ExtTreeSet.not_mem_empty]

/-- The query of a recovery looks at the time alone.
Source: `since`. -/
theorem accepts_since {start : Instant} {t : Trade} :
    (since start).accepts t = decide (start ≤ t.time) := by
  simp [since, accepts, Window.contains]

end TradeQuery

end CostBasis
