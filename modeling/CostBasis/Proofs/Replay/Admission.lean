import CostBasis.Proofs.Position.Exact
import CostBasis.Proofs.Replay.Batching

/-!
# A batch is taken as a whole or not at all

A replay looks through a batch before it takes any of it, so a batch in which something is wrong
changes nothing.  But there is one more way out, in the middle of a batch: the position and the sum
of the quantities may have come apart.  They never do.  Both begin at zero and are led by the same
additions, so they are the same decimal, however the sums are rounded.  This holds whatever the
replay was asked to take before, and whatever it answered.

Main statement: `append_all_or_nothing`.
-/

namespace CostBasis

open Decimal

/-! ## What a trade must be like -/

/-- A trade that a replay of a symbol may take after one at the time `last`. -/
structure Trade.Follows (symbol : String) (last : Option Instant) (t : Trade) : Prop where
  symbol : t.symbol = symbol
  quantity : 0 < t.quantity.toRat
  price : 0 ≤ t.price.toRat
  fee : 0 ≤ t.fee.toRat
  time : ∀ before ∈ last, before ≤ t.time

/-- What is wrong with a trade that comes after one at the time `last`.  Of several things it is the
first one in this order. -/
inductive Trade.Objection (symbol : String) (last : Option Instant) (t : Trade) : Rejection → Prop
  | foreign (other : t.symbol ≠ symbol) : t.Objection symbol last (.foreign t.key symbol)
  | quantity (same : t.symbol = symbol) (nothing : t.quantity.toRat ≤ 0) :
      t.Objection symbol last (.flawed t.key .quantity)
  | price (same : t.symbol = symbol) (something : 0 < t.quantity.toRat)
      (negative : t.price.toRat < 0) : t.Objection symbol last (.flawed t.key .price)
  | fee (same : t.symbol = symbol) (something : 0 < t.quantity.toRat) (price : 0 ≤ t.price.toRat)
      (negative : t.fee.toRat < 0) : t.Objection symbol last (.flawed t.key .fee)
  | chronology {before : Instant} (same : t.symbol = symbol) (something : 0 < t.quantity.toRat)
      (price : 0 ≤ t.price.toRat) (fee : 0 ≤ t.fee.toRat) (previous : before ∈ last)
      (earlier : t.time < before) : t.Objection symbol last (.flawed t.key .chronology)

/-- With a trade that may be taken nothing is wrong.  Each objection denies one of the things that
it takes to be taken. -/
theorem Trade.Objection.not_follows {symbol : String} {last : Option Instant} {t : Trade}
    {e : Rejection} (h : t.Objection symbol last e) : ¬t.Follows symbol last := by
  intro hfollows
  cases h with
  | foreign other => exact other hfollows.symbol
  | quantity _ nothing => exact nothing.not_gt hfollows.quantity
  | price _ _ negative => exact negative.not_ge hfollows.price
  | fee _ _ _ negative => exact negative.not_ge hfollows.fee
  | chronology _ _ _ _ previous earlier =>
      exact Int64.not_le.mpr earlier (hfollows.time _ previous)

namespace Replay

variable {terms : Terms} {r s : Replay} {t : Trade} {ts : List Trade} {symbol : String}
  {last : Option Instant} {e : Rejection}

/-! ## Looking through a batch -/

/-- Every trade may be taken after those before it, where `last` is the time of the one before the
list. -/
def Admits (symbol : String) (last : Option Instant) (ts : List Trade) : Prop :=
  ∀ before t rest, ts = before ++ t :: rest → t.Follows symbol (lastTime last before)

/-- Without trades there is nothing that may not be taken. -/
theorem admits_nil : Admits symbol last [] := by
  intro before t rest h
  simp at h

/-- A list may be taken if its first trade may, and the others may after it.  The time of the first
trade is then the one that the second may not be earlier than. -/
theorem admits_cons :
    Admits symbol last (t :: ts) ↔ t.Follows symbol last ∧ Admits symbol (some t.time) ts := by
  constructor
  · intro h
    refine ⟨h [] t ts rfl, fun before u rest hts => ?_⟩
    rw [← lastTime_cons last]
    exact h (t :: before) u rest (by rw [hts, List.cons_append])
  · rintro ⟨ht, hts⟩ before u rest hcons
    cases before with
    | nil =>
        obtain ⟨rfl, -⟩ := List.cons.inj hcons
        exact ht
    | cons v before =>
        obtain ⟨rfl, hrest⟩ := List.cons.inj hcons
        rw [lastTime_cons]
        exact hts before u rest hrest

/-- A trade of the symbol has no flaw, or the first one that is looked for.
Source: the order of the checks in `validate`. -/
theorem flaw?_cases (last : Option Instant) (same : t.symbol = symbol) :
    t.Follows symbol last ∧ flaw? last t = none ∨
      ∃ flaw, t.Objection symbol last (.flawed t.key flaw) ∧ flaw? last t = some flaw := by
  unfold flaw?
  split_ifs with hquantity hprice hfee htime
  · rw [Bool.not_eq_true', Bool.eq_false_iff, Ne, isPositive_iff, not_lt] at hquantity
    exact .inr ⟨_, .quantity same hquantity, rfl⟩
  all_goals rw [Bool.not_eq_true', Bool.not_eq_false, isPositive_iff] at hquantity
  · exact .inr ⟨_, .price same hquantity ((isNegative_iff _).mp hprice), rfl⟩
  all_goals rw [isNegative_iff, not_lt] at hprice
  · exact .inr ⟨_, .fee same hquantity hprice ((isNegative_iff _).mp hfee), rfl⟩
  all_goals rw [isNegative_iff, not_lt] at hfee
  · obtain ⟨before, hbefore, hearlier⟩ := (Option.any_eq_true ..).mp htime
    exact .inr ⟨_, .chronology same hquantity hprice hfee hbefore (of_decide_eq_true hearlier), rfl⟩
  · refine .inl ⟨⟨same, hquantity, hprice, hfee, fun before hbefore => Int64.not_lt.mp ?_⟩, rfl⟩
    intro hearlier
    exact htime ((Option.any_eq_true ..).mpr ⟨before, hbefore, decide_eq_true hearlier⟩)

/-- A list is looked through until something is wrong with a trade.
Source: the loop of `validate`. -/
theorem objection?_cons (symbol : String) (last : Option Instant) (t : Trade) (ts : List Trade) :
    t.Follows symbol last ∧
        objection? symbol last (t :: ts) = objection? symbol (some t.time) ts ∨
      ∃ e, t.Objection symbol last e ∧ objection? symbol last (t :: ts) = some e := by
  rw [objection?]
  by_cases same : t.symbol = symbol
  · rw [if_neg (not_not.mpr same)]
    rcases flaw?_cases last same with ⟨hfollows, hnone⟩ | ⟨flaw, hflaw, hsome⟩
    · rw [hnone]
      exact .inl ⟨hfollows, rfl⟩
    · rw [hsome]
      exact .inr ⟨_, hflaw, rfl⟩
  · rw [if_pos same]
    exact .inr ⟨_, .foreign same, rfl⟩

/-- **There is no objection exactly if every trade may be taken after those before it.**  The
induction is on the list, for any time of the trade before it. -/
theorem objection?_eq_none_iff (ts : List Trade) : ∀ {last : Option Instant},
    objection? symbol last ts = none ↔ Admits symbol last ts := by
  induction ts with
  | nil => exact iff_of_true rfl admits_nil
  | cons t ts ih =>
      intro last
      rw [admits_cons]
      rcases objection?_cons symbol last t ts with ⟨hfollows, heq⟩ | ⟨e, he, heq⟩
      · rw [heq, ih, and_iff_right hfollows]
      · rw [heq]
        exact iff_of_false (Option.some_ne_none e) fun h => he.not_follows h.1

/-- **The objection to a list is the one to the first trade that may not be taken.**  The induction
is on the list, for any time of the trade before it. -/
theorem exists_of_objection?_eq_some (ts : List Trade) : ∀ {last : Option Instant},
    objection? symbol last ts = some e →
      ∃ before t rest, ts = before ++ t :: rest ∧ Admits symbol last before ∧
        t.Objection symbol (lastTime last before) e := by
  induction ts with
  | nil =>
      intro last h
      cases h
  | cons t ts ih =>
      intro last h
      rcases objection?_cons symbol last t ts with ⟨hfollows, heq⟩ | ⟨e', he, heq⟩
      · obtain ⟨before, u, rest, rfl, hbefore, hu⟩ := ih (heq.symm.trans h)
        refine ⟨t :: before, u, rest, rfl, admits_cons.mpr ⟨hfollows, hbefore⟩, ?_⟩
        rwa [lastTime_cons]
      · obtain rfl := Option.some.inj (heq.symm.trans h)
        exact ⟨[], t, ts, rfl, admits_nil, he⟩

/-! ## Position and sum in step -/

/-- The sum of the quantities is the open amount, to the last digit. -/
def InStep (r : Replay) : Prop := r.quantity = r.position.base

/-- A trade of a positive quantity leaves them in step, so it is taken.  The position and the sum
add the same quantity to the same decimal, and so they round in the same way. -/
theorem InStep.enter {answer : Except Rejection (Option Checkpoint)} (h : r.InStep)
    (hquantity : t.quantity.isPositive = true) (henter : r.enter terms t = .ok (answer, s)) :
    (∃ checkpoint, answer = .ok checkpoint) ∧ s.InStep := by
  obtain ⟨position, hposition, henter⟩ := bind_eq_ok.mp henter
  obtain ⟨quantity, hsum, henter⟩ := bind_eq_ok.mp henter
  obtain ⟨⟨gain?, position⟩, happly, rfl⟩ := map_eq_ok.mp hposition
  have hbase := (Position.effect_of_apply hquantity happly).base
  rw [InStep] at h
  rw [h] at hsum
  obtain rfl : quantity = position.base := Except.ok.inj (hsum.symm.trans hbase)
  rw [if_neg (by simp [isEqual])] at henter
  cases hside : t.side <;> simp only [hside] at henter
  all_goals
    obtain ⟨volume, -, henter⟩ := bind_eq_ok.mp henter
    obtain ⟨rfl, rfl⟩ := Prod.mk.inj (Except.ok.inj henter)
    exact ⟨⟨_, rfl⟩, rfl⟩

/-- Trades of positive quantities are all taken.  The induction is on the trades, and each of them
leaves the two in step for the next one. -/
theorem InStep.enterAll (ts : List Trade) : ∀ {r s : Replay}
    {answer : Except Rejection (List Checkpoint)}, r.InStep →
      (∀ t ∈ ts, t.quantity.isPositive = true) → r.enterAll terms ts = .ok (answer, s) →
        (∃ found, answer = .ok found) ∧ s.InStep := by
  induction ts with
  | nil =>
      intro r s answer h _ henter
      obtain ⟨rfl, rfl⟩ := Prod.mk.inj (Except.ok.inj henter)
      exact ⟨⟨[], rfl⟩, h⟩
  | cons t ts ih =>
      intro r s answer h hpositive henter
      obtain ⟨ht, hpositive⟩ := List.forall_mem_cons.mp hpositive
      rw [Replay.enterAll] at henter
      obtain ⟨⟨first, q⟩, hfirst, henter⟩ := bind_eq_ok.mp henter
      obtain ⟨⟨checkpoint, rfl⟩, hq⟩ := h.enter ht hfirst
      obtain ⟨⟨others, s'⟩, hothers, henter⟩ := bind_eq_ok.mp henter
      obtain ⟨⟨rest, rfl⟩, hs⟩ := ih hq hpositive hothers
      obtain ⟨rfl, rfl⟩ := Prod.mk.inj (Except.ok.inj henter)
      exact ⟨⟨_, rfl⟩, hs⟩

/-! ## Taking a batch -/

/-- A batch with an objection is rejected for it, and nothing is taken. -/
theorem append_of_objection (h : objection? terms.market.symbol (r.trades.back?.map (·.time)) ts =
    some e) : r.append terms ts = .ok (.error e, r) := by
  unfold append
  rw [h]
  rfl

/-- A batch without objections is taken, unless it meets a fault.  So the objection is the only way
for a batch to be rejected. -/
theorem InStep.append {answer : Except Rejection (List Checkpoint)} (h : r.InStep)
    (hnone : objection? terms.market.symbol (r.trades.back?.map (·.time)) ts = none)
    (happend : r.append terms ts = .ok (answer, s)) :
    (∃ found, answer = .ok found) ∧ s.InStep := by
  unfold Replay.append at happend
  rw [hnone] at happend
  obtain ⟨⟨taken, q⟩, henter, happend⟩ := bind_eq_ok.mp happend
  obtain ⟨⟨found, rfl⟩, hq⟩ := h.enterAll ts
    (fun t ht => (fit_of_objection?_eq_none ts hnone t ht).quantity) henter
  obtain ⟨rfl, rfl⟩ := Prod.mk.inj (Except.ok.inj happend)
  exact ⟨⟨found, rfl⟩, hq⟩

/-- The states that a replay may come to, whatever batches it was asked to take, and whatever it
answered. -/
inductive Reached (terms : Terms) : Replay → Prop
  | start : Reached terms .start
  | append {r s : Replay} (batch : List Trade) (answer : Except Rejection (List Checkpoint)) :
      Reached terms r → r.append terms batch = .ok (answer, s) → Reached terms s

/-- **The position and the sum never come apart**, whatever batches a replay was asked to take, and
also after batches that were rejected. -/
theorem Reached.inStep (h : Reached terms r) : r.InStep := by
  induction h with
  | start => rfl
  | @append r s batch answer _ happend ih =>
      cases hobjection : objection? terms.market.symbol (r.trades.back?.map (·.time)) batch with
      | none => exact (ih.append hobjection happend).2
      | some e =>
          obtain ⟨-, rfl⟩ := Prod.mk.inj (Except.ok.inj ((append_of_objection hobjection).symm.trans
            happend))
          exact ih

end Replay

/-- **A batch is taken as a whole or not at all.**  A batch that meets no fault is taken exactly if
every trade of it has the symbol, a positive quantity, no negative price or fee, and is not earlier
than the trade before it; the first trade is looked at after the last one that the replay has taken.
If it is taken, then nothing of it is missing: the position has gone through its trades, the trades
and the checkpoints that they have left stand behind the earlier ones, and the quantities have been
added to the sum, which is the open amount, and to the volumes.  If not, the answer is the objection
to the first trade that is not so, and nothing has changed.  That the position and the sum of the
quantities have come apart is never the answer.
Source: `add_trades` and `validate`. -/
theorem append_all_or_nothing {terms : Terms} {r : Replay} (h : Replay.Reached terms r)
    (batch : List Trade) :
    let symbol := terms.market.symbol
    let last := r.trades.back?.map (·.time)
    (∀ answer s, r.append terms batch = .ok (answer, s) →
      ((∃ found, answer = .ok found) ↔ Replay.Admits symbol last batch)) ∧
    (∀ found s, r.append terms batch = .ok (.ok found, s) →
      Replay.Appended terms r batch found s ∧ s.quantity = s.position.base) ∧
    (¬Replay.Admits symbol last batch → ∃ before t rest e, batch = before ++ t :: rest ∧
      Replay.Admits symbol last before ∧ t.Objection symbol (Replay.lastTime last before) e ∧
        r.append terms batch = .ok (.error e, r)) ∧
    ∀ key base total s, r.append terms batch ≠ .ok (.error (.diverged key base total), s) := by
  intro symbol last
  cases hobjection : Replay.objection? symbol last batch with
  | none =>
      have hadmits := (Replay.objection?_eq_none_iff batch).mp hobjection
      refine ⟨fun answer s happend => ?_, fun found s happend => ?_,
        fun hnot => absurd hadmits hnot, ?_⟩
      · exact iff_of_true (h.inStep.append hobjection happend).1 hadmits
      · exact ⟨(Replay.append_eq_ok happend).2, (h.inStep.append hobjection happend).2⟩
      · intro key base total s happend
        obtain ⟨found, hfound⟩ := (h.inStep.append hobjection happend).1
        cases hfound
  | some e =>
      have happend := Replay.append_of_objection hobjection
      obtain ⟨before, t, rest, hbatch, hbefore, ht⟩ :=
        Replay.exists_of_objection?_eq_some batch hobjection
      have hnot : ¬Replay.Admits symbol last batch :=
        fun hadmits => ht.not_follows (hadmits before t rest hbatch)
      refine ⟨fun answer s hanswer => ?_, fun found s hanswer => ?_,
        fun _ => ⟨before, t, rest, e, hbatch, hbefore, ht, happend⟩, ?_⟩
      · obtain ⟨rfl, -⟩ := Prod.mk.inj (Except.ok.inj (happend.symm.trans hanswer))
        exact iff_of_false (fun ⟨found, hfound⟩ => nomatch hfound) hnot
      · obtain ⟨hfound, -⟩ := Prod.mk.inj (Except.ok.inj (happend.symm.trans hanswer))
        cases hfound
      · intro key base total s hdiverged
        rw [happend] at hdiverged
        obtain ⟨heq, -⟩ := Prod.mk.inj (Except.ok.inj hdiverged)
        obtain rfl := Except.error.inj heq
        cases ht

/-- A good trade, one with a negative price, and one without a quantity. -/
def sampleFlaws : List Trade :=
  [sampleTrade 3 .sell 103 1 1, sampleTrade 4 .sell (-99) 3 1, sampleTrade 5 .buy 97 0 1]

/-- After the first two trades of the sample history the flawed batch is not taken, for the negative
price that comes first, and the rest of the history is taken, with the one checkpoint at its end. -/
theorem append_all_or_nothing_sampleFlaws :
    Yields (Replay.start.append sampleTerms (sampleHistory.take 2)) fun first =>
      Replay.Reached sampleTerms first.2 ∧
      (∃ before t rest, sampleFlaws = before ++ t :: rest ∧
        Replay.Admits "BTCUSDT" (some ⟨2000⟩) before ∧
        t.Objection "BTCUSDT" (Replay.lastTime (some ⟨2000⟩) before)
          (.flawed ⟨"BTCUSDT", 4⟩ .price)) ∧
      first.2.append sampleTerms sampleFlaws =
        .ok (.error (.flawed ⟨"BTCUSDT", 4⟩ .price), first.2) ∧
      Replay.Admits "BTCUSDT" (some ⟨2000⟩) (sampleHistory.drop 2) ∧
      ∃ s, first.2.append sampleTerms (sampleHistory.drop 2) = .ok (.ok [⟨4, 5, ⟨5000⟩⟩], s) ∧
        Replay.Appended sampleTerms first.2 (sampleHistory.drop 2) [⟨4, 5, ⟨5000⟩⟩] s ∧
        s.trades.toList = sampleHistory ∧ s.quantity = s.position.base := by
  have hrun : Yields (Replay.start.append sampleTerms (sampleHistory.take 2)) fun first =>
      first.2.trades.back?.map (·.time) = some ⟨2000⟩ ∧
      first.2.trades.toList = sampleHistory.take 2 ∧
      Yields (first.2.append sampleTerms (sampleHistory.drop 2)) fun second =>
        second.1 = .ok [⟨4, 5, ⟨5000⟩⟩] := by decide +kernel
  have hobjection : Replay.objection? "BTCUSDT" (some ⟨2000⟩) sampleFlaws =
      some (.flawed ⟨"BTCUSDT", 4⟩ .price) := by decide +kernel
  have hnot : ¬Replay.Admits "BTCUSDT" (some ⟨2000⟩) sampleFlaws := by
    rw [← Replay.objection?_eq_none_iff, hobjection]
    exact Option.some_ne_none _
  obtain ⟨⟨answer, r⟩, hr, hlast, htrades, ⟨_, s⟩, hs, rfl⟩ := hrun
  have hreached : Replay.Reached sampleTerms r := Replay.Reached.start.append _ answer hr
  obtain ⟨-, -, hflawed, -⟩ := append_all_or_nothing hreached sampleFlaws
  rw [hlast] at hflawed
  obtain ⟨before, t, rest, e, hbatch, hbefore, ht, happend⟩ := hflawed hnot
  have happend' : r.append sampleTerms sampleFlaws =
      .ok (.error (.flawed ⟨"BTCUSDT", 4⟩ .price), r) :=
    Replay.append_of_objection (hlast ▸ hobjection)
  obtain rfl : e = .flawed ⟨"BTCUSDT", 4⟩ .price :=
    Except.error.inj (congrArg Prod.fst (Except.ok.inj (happend.symm.trans happend')))
  obtain ⟨hiff, htaken, -, -⟩ := append_all_or_nothing hreached (sampleHistory.drop 2)
  rw [hlast] at hiff
  have hadmits : Replay.Admits "BTCUSDT" (some ⟨2000⟩) (sampleHistory.drop 2) :=
    (hiff _ s hs).mp ⟨_, rfl⟩
  obtain ⟨hleft, hinStep⟩ := htaken _ s hs
  have hall : s.trades.toList = sampleHistory := by
    rw [hleft.trades, htrades, List.take_append_drop]
  exact ⟨_, hr, hreached, ⟨before, t, rest, hbatch, hbefore, ht⟩, happend, hadmits, s, hs, hleft,
    hall, hinStep⟩

end CostBasis
