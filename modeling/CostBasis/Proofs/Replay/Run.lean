import CostBasis.Proofs.Position.Apply
import CostBasis.Replay

/-!
# Runs of a replay

What a replay does with batches that it takes.  Every trade of such a batch is fit, its position
goes through the trades as any position does, and the trades are kept in their order.  The
checkpoints are those that the position leaves: there is one after every trade that closes it.  That
a replay looks at the sum of the quantities for this, and not at the position, makes no difference,
since it stops where the two differ.

Main statements: `append_eq_ok` for one batch, `Batches.replayed` for batches one after another.
-/

namespace CostBasis

/-- A trade that a replay of a symbol may take. -/
structure Trade.Fit (symbol : String) (t : Trade) : Prop where
  symbol : t.symbol = symbol
  quantity : t.quantity.isPositive = true
  price : ¬t.price.isNegative = true
  fee : ¬t.fee.isNegative = true

namespace Replay

variable {terms : Terms} {r s : Replay} {t : Trade} {ts : List Trade} {found : List Checkpoint}

/-! ## Looking through a batch -/

/-- A trade without a flaw has a positive quantity, and neither its price nor its fee is
negative. -/
theorem flaw?_eq_none {last : Option Instant} (h : flaw? last t = none) :
    t.quantity.isPositive = true ∧ ¬t.price.isNegative = true ∧ ¬t.fee.isNegative = true := by
  unfold flaw? at h
  split at h
  · cases h
  next hquantity =>
    split at h
    · cases h
    next hprice =>
      split at h
      · cases h
      next hfee => exact ⟨by simpa using hquantity, hprice, hfee⟩

/-- The trades of a batch without objections are fit.  Their order in time is more than that, and is
not needed for what follows. -/
theorem fit_of_objection?_eq_none {symbol : String} (ts : List Trade) :
    ∀ {last : Option Instant}, objection? symbol last ts = none → ∀ t ∈ ts, t.Fit symbol := by
  induction ts with
  | nil =>
      intro last _ t ht
      exact absurd ht List.not_mem_nil
  | cons u ts ih =>
      intro last h
      rw [objection?] at h
      split at h
      · cases h
      next hsymbol =>
        cases hflaw : flaw? last u with
        | some flaw =>
            rw [hflaw] at h
            cases h
        | none =>
            rw [hflaw] at h
            obtain ⟨hquantity, hprice, hfee⟩ := flaw?_eq_none hflaw
            exact List.forall_mem_cons.mpr
              ⟨⟨not_not.mp hsymbol, hquantity, hprice, hfee⟩, ih h⟩

/-! ## One trade -/

/-- A replay that has taken one trade, and the checkpoint that the trade has left. -/
structure Entered (terms : Terms) (r : Replay) (t : Trade) (checkpoint : Option Checkpoint)
    (s : Replay) : Prop where
  position : r.position.after terms t = .ok s.position
  quantity : r.quantity.add t.signedQuantity = .ok s.quantity
  bought : t.side = .buy →
    r.buyVolume.add t.quantity = .ok s.buyVolume ∧ s.sellVolume = r.sellVolume
  sold : t.side = .sell →
    r.sellVolume.add t.quantity = .ok s.sellVolume ∧ s.buyVolume = r.buyVolume
  trades : s.trades = r.trades.push t
  checkpoints : s.checkpoints = r.checkpoints
  /-- There is a checkpoint where nothing is open. -/
  checkpoint : checkpoint =
    if s.position.isFlat then some ⟨r.trades.size, t.id, t.time⟩ else none

/-- What taking one trade leaves.  That the position is flat and that the sum is zero are two things
to look at; where they differ, the trade is not taken.
Source: the loop body of `add_trades`. -/
theorem enter_eq_ok {checkpoint : Option Checkpoint}
    (h : r.enter terms t = .ok (.ok checkpoint, s)) : Entered terms r t checkpoint s := by
  obtain ⟨position, hposition, h⟩ := bind_eq_ok.mp h
  obtain ⟨quantity, hquantity, h⟩ := bind_eq_ok.mp h
  split at h
  · cases h
  next hequal =>
    -- The two amounts are equal, so it is the same whether the one or the other is zero.
    have hequal : position.base.toRat = quantity.toRat := by
      rwa [Bool.not_eq_true, Bool.not_eq_false', Decimal.isEqual_iff] at hequal
    have hzero : quantity.isZero = position.isFlat := by
      rw [Position.isFlat, Bool.eq_iff_iff, Decimal.isZero_iff, Decimal.isZero_iff, hequal]
    cases hside : t.side <;> simp only [hside] at h
    · obtain ⟨buyVolume, hvolume, h⟩ := bind_eq_ok.mp h
      obtain ⟨hcheckpoint, rfl⟩ := Prod.mk.inj (Except.ok.inj h)
      rw [Except.ok.injEq, hzero] at hcheckpoint
      exact ⟨hposition, hquantity, fun _ => ⟨hvolume, rfl⟩, fun h => (nomatch hside.symm.trans h),
        rfl, rfl, hcheckpoint.symm⟩
    · obtain ⟨sellVolume, hvolume, h⟩ := bind_eq_ok.mp h
      obtain ⟨hcheckpoint, rfl⟩ := Prod.mk.inj (Except.ok.inj h)
      rw [Except.ok.injEq, hzero] at hcheckpoint
      exact ⟨hposition, hquantity, fun h => (nomatch hside.symm.trans h), fun _ => ⟨hvolume, rfl⟩,
        rfl, rfl, hcheckpoint.symm⟩

/-! ## The trades of a batch -/

/-- Taking several trades means to take the first one, and the others from there.  The checkpoint of
the first one comes first, if it has left one. -/
theorem enterAll_cons_iff : r.enterAll terms (t :: ts) = .ok (.ok found, s) ↔
    ∃ checkpoint q rest, r.enter terms t = .ok (.ok checkpoint, q) ∧
      q.enterAll terms ts = .ok (.ok rest, s) ∧ found = checkpoint.toList ++ rest := by
  rw [enterAll]
  constructor
  · intro h
    obtain ⟨⟨entered, q⟩, henter, h⟩ := bind_eq_ok.mp h
    cases entered with
    | error reason => cases h
    | ok checkpoint =>
      obtain ⟨⟨others, s'⟩, hrest, h⟩ := bind_eq_ok.mp h
      obtain ⟨hfound, rfl⟩ := Prod.mk.inj (Except.ok.inj h)
      obtain ⟨rest, rfl, rfl⟩ := map_eq_ok.mp hfound
      exact ⟨checkpoint, q, rest, henter, hrest, rfl⟩
  · rintro ⟨checkpoint, q, rest, henter, hrest, rfl⟩
    rw [henter, ok_bind]
    simp only [hrest, ok_bind]
    rfl

/-- Of several trades that are taken the first one is taken, and the others from there. -/
theorem enterAll_cons_eq_ok (h : r.enterAll terms (t :: ts) = .ok (.ok found, s)) :
    ∃ checkpoint q rest, Entered terms r t checkpoint q ∧
      q.enterAll terms ts = .ok (.ok rest, s) ∧ found = checkpoint.toList ++ rest := by
  obtain ⟨checkpoint, q, rest, henter, hrest, hfound⟩ := enterAll_cons_iff.mp h
  exact ⟨checkpoint, q, rest, enter_eq_ok henter, hrest, hfound⟩

/-- The checkpoints of trades that are applied to a position one after another, counted from the
place `i`: there is one after every trade that leaves nothing open. -/
def closings (terms : Terms) (p : Position) (i : Nat) : List Trade → List Checkpoint
  | [] => []
  | t :: ts =>
    match p.after terms t with
    | .error _ => []
    | .ok q => (if q.isFlat then [⟨i, t.id, t.time⟩] else []) ++ closings terms q (i + 1) ts

/-- The first trade leaves a checkpoint or none, and the others leave theirs from where it has
led. -/
theorem closings_cons {p q : Position} (h : p.after terms t = .ok q) (i : Nat) (ts : List Trade) :
    closings terms p i (t :: ts) =
      (if q.isFlat then [⟨i, t.id, t.time⟩] else []) ++ closings terms q (i + 1) ts := by
  rw [closings, h]

/-- The checkpoints of a part, and then those of the rest, which are counted from behind the
part. -/
theorem closings_append (ts us : List Trade) : ∀ {p q : Position} {i : Nat},
    p.afterAll terms ts = .ok q →
      closings terms p i (ts ++ us) =
        closings terms p i ts ++ closings terms q (i + ts.length) us := by
  induction ts with
  | nil =>
      intro p q i h
      obtain rfl := Except.ok.inj h
      rfl
  | cons t ts ih =>
      intro p q i h
      rw [Position.afterAll_cons] at h
      obtain ⟨p', hafter, h⟩ := bind_eq_ok.mp h
      rw [List.cons_append, closings_cons hafter, closings_cons hafter, ih h, List.append_assoc,
        List.length_cons, Nat.add_right_comm, Nat.add_assoc]

/-- The quantities of the trades on one side, in their order. -/
def quantitiesOn (side : Side) (ts : List Trade) : List Decimal :=
  (ts.filter fun t => t.side = side).map Trade.quantity

/-- A trade of the side is one of those on it. -/
theorem quantitiesOn_cons_of_eq {side : Side} (h : t.side = side) (ts : List Trade) :
    quantitiesOn side (t :: ts) = t.quantity :: quantitiesOn side ts := by
  simp [quantitiesOn, h]

/-- A trade of the other side is not. -/
theorem quantitiesOn_cons_of_ne {side : Side} (h : t.side ≠ side) (ts : List Trade) :
    quantitiesOn side (t :: ts) = quantitiesOn side ts := by
  simp [quantitiesOn, h]

/-- A replay that has taken some trades, and the checkpoints that they have left.  The position has
gone through the trades, they stand behind the earlier ones, and their quantities have been added
one after another: all of them, with their signs, to the sum that is kept apart from the position,
and those of each side to its volume. -/
structure Taken (terms : Terms) (r : Replay) (ts : List Trade) (found : List Checkpoint)
    (s : Replay) : Prop where
  position : r.position.afterAll terms ts = .ok s.position
  trades : s.trades.toList = r.trades.toList ++ ts
  found : found = closings terms r.position r.trades.size ts
  quantity : (ts.map Trade.signedQuantity).foldlM Decimal.add r.quantity = .ok s.quantity
  buyVolume : (quantitiesOn .buy ts).foldlM Decimal.add r.buyVolume = .ok s.buyVolume
  sellVolume : (quantitiesOn .sell ts).foldlM Decimal.add r.sellVolume = .ok s.sellVolume

/-- One more trade in front.  Its quantity is the first one that is added, to the sum and to the
volume of its side; the other volume does not see it. -/
theorem Entered.cons {q : Replay} {checkpoint : Option Checkpoint} {rest : List Checkpoint}
    (hq : Entered terms r t checkpoint q) (hs : Taken terms q ts rest s) :
    Taken terms r (t :: ts) (checkpoint.toList ++ rest) s where
  position := by
    rw [Position.afterAll_cons, hq.position]
    exact hs.position
  trades := by
    rw [hs.trades, hq.trades, Array.toList_push, List.append_assoc]
    rfl
  found := by
    rw [closings_cons hq.position, hs.found, hq.trades, Array.size_push, hq.checkpoint]
    split <;> rfl
  quantity := by
    rw [List.map_cons, List.foldlM_cons, hq.quantity, ok_bind]
    exact hs.quantity
  buyVolume := by
    cases hside : t.side with
    | buy =>
      rw [quantitiesOn_cons_of_eq hside, List.foldlM_cons, (hq.bought hside).1, ok_bind]
      exact hs.buyVolume
    | sell =>
      rw [quantitiesOn_cons_of_ne (by simp [hside]), ← (hq.sold hside).2]
      exact hs.buyVolume
  sellVolume := by
    cases hside : t.side with
    | buy =>
      rw [quantitiesOn_cons_of_ne (by simp [hside]), ← (hq.bought hside).2]
      exact hs.sellVolume
    | sell =>
      rw [quantitiesOn_cons_of_eq hside, List.foldlM_cons, (hq.sold hside).1, ok_bind]
      exact hs.sellVolume

/-- **What trades leave that are taken one after another**, as a whole.  The induction is on the
trades, with one more in front. -/
theorem taken_of_enterAll (ts : List Trade) : ∀ {r : Replay} {found : List Checkpoint},
    r.enterAll terms ts = .ok (.ok found, s) → Taken terms r ts found s := by
  induction ts with
  | nil =>
      intro r found h
      obtain ⟨hfound, rfl⟩ := Prod.mk.inj (Except.ok.inj h)
      exact ⟨rfl, (List.append_nil _).symm, (Except.ok.inj hfound).symm, rfl, rfl, rfl⟩
  | cons t ts ih =>
      intro r found h
      obtain ⟨checkpoint, q, rest, hq, hrest, rfl⟩ := enterAll_cons_eq_ok h
      exact hq.cons (ih hrest)

/-- The checkpoints of the trades are answered, and not yet kept.  A batch keeps them as a whole,
when all its trades are taken. -/
theorem checkpoints_of_enterAll (ts : List Trade) : ∀ {r : Replay} {found : List Checkpoint},
    r.enterAll terms ts = .ok (.ok found, s) → s.checkpoints = r.checkpoints := by
  induction ts with
  | nil =>
      intro r found h
      obtain ⟨-, rfl⟩ := Prod.mk.inj (Except.ok.inj h)
      rfl
  | cons t ts ih =>
      intro r found h
      obtain ⟨checkpoint, q, rest, hq, hrest, -⟩ := enterAll_cons_eq_ok h
      exact (ih hrest).trans hq.checkpoints

/-! ## Batches -/

/-- A batch is taken if it has no objections and its trades are taken.
Source: `add_trades`. -/
theorem append_iff : r.append terms ts = .ok (.ok found, s) ↔
    objection? terms.market.symbol (r.trades.back?.map (·.time)) ts = none ∧
      ∃ q, r.enterAll terms ts = .ok (.ok found, q) ∧
        s = { q with checkpoints := q.checkpoints ++ found } := by
  unfold append
  constructor
  · intro h
    split at h
    · cases h
    next hnone =>
      obtain ⟨⟨taken, q⟩, henter, h⟩ := bind_eq_ok.mp h
      cases taken with
      | error reason => cases h
      | ok found' =>
        obtain ⟨hfound, rfl⟩ := Prod.mk.inj (Except.ok.inj h)
        obtain rfl := Except.ok.inj hfound
        exact ⟨hnone, q, henter, rfl⟩
  · rintro ⟨hnone, q, henter, rfl⟩
    rw [hnone]
    simp only [henter, ok_bind]
    rfl

/-- A replay that has taken a batch as a whole: its trades are taken, and the checkpoints that they
have left stand behind the earlier ones. -/
structure Appended (terms : Terms) (r : Replay) (ts : List Trade) (answer : List Checkpoint)
    (s : Replay) : Prop extends Taken terms r ts answer s where
  checkpoints : s.checkpoints = r.checkpoints ++ answer

/-- **What a batch leaves that is taken.**  Its trades are fit, and nothing of it is missing. -/
theorem append_eq_ok (h : r.append terms ts = .ok (.ok found, s)) :
    (∀ t ∈ ts, t.Fit terms.market.symbol) ∧ Appended terms r ts found s := by
  obtain ⟨hnone, q, henter, rfl⟩ := append_iff.mp h
  have hq := taken_of_enterAll ts henter
  have hcheckpoints := checkpoints_of_enterAll ts henter
  refine ⟨fit_of_objection?_eq_none ts hnone, ?_⟩
  exact { hq with checkpoints := congrArg (· ++ found) hcheckpoints }

/-- Batches that a replay has taken one after another, each with the checkpoints that it was
answered with. -/
inductive Batches (terms : Terms) : List (List Trade × List Checkpoint) → Replay → Prop
  | none : Batches terms [] .start
  | snoc {calls : List (List Trade × List Checkpoint)} {r s : Replay} (batch : List Trade)
      (found : List Checkpoint) :
      Batches terms calls r → r.append terms batch = .ok (.ok found, s) →
        Batches terms (calls ++ [(batch, found)]) s

/-- What a replay is after batches: its position is that of all their trades, and its checkpoints
are those that this position leaves. -/
structure Replayed (terms : Terms) (ts : List Trade) (r : Replay) : Prop where
  trades : r.trades.toList = ts
  fit : ∀ t ∈ ts, t.Fit terms.market.symbol
  position : Position.flat.afterAll terms ts = .ok r.position
  checkpoints : r.checkpoints = closings terms .flat 0 ts

/-- One more batch leaves what all the batches together leave, and its checkpoints come behind the
earlier ones. -/
theorem Replayed.append {us : List Trade} (h : Replayed terms ts r)
    (happend : r.append terms us = .ok (.ok found, s)) :
    Replayed terms (ts ++ us) s ∧ s.checkpoints = r.checkpoints ++ found := by
  obtain ⟨hfit, hs⟩ := append_eq_ok happend
  refine ⟨⟨?_, ?_, ?_, ?_⟩, hs.checkpoints⟩
  · rw [hs.trades, h.trades]
  · exact fun t ht => (List.mem_append.mp ht).elim (h.fit t) (hfit t)
  · rw [Position.afterAll_append, h.position]
    exact hs.position
  · rw [closings_append ts us h.position, hs.checkpoints, h.checkpoints, hs.found, Nat.zero_add,
      ← h.trades, Array.length_toList]

/-- A new replay has taken nothing. -/
theorem replayed_start (terms : Terms) : Replayed terms [] .start :=
  ⟨rfl, fun _ ht => absurd ht List.not_mem_nil, rfl, rfl⟩

/-- **Batches add up to one history**, and so do their checkpoints.  The induction adds one batch at
the end. -/
theorem Batches.replayed {calls : List (List Trade × List Checkpoint)} (h : Batches terms calls r) :
    Replayed terms (calls.flatMap (·.1)) r ∧ r.checkpoints = calls.flatMap (·.2) := by
  induction h with
  | none => exact ⟨replayed_start terms, rfl⟩
  | snoc batch found _ happend ih =>
      obtain ⟨hs, hcheckpoints⟩ := ih.1.append happend
      rw [List.flatMap_append, List.flatMap_append, List.flatMap_singleton, List.flatMap_singleton]
      exact ⟨hs, by rw [hcheckpoints, ih.2]⟩

end Replay

end CostBasis
