import CostBasis.Proofs.Position.Apply
import CostBasis.Proofs.Reconciler.Run

/-!
# Each trade is applied once

The trades that a reconciler has announced as applied are its books.  The position is what the books
add up to, in their order; the keys of applied trades are the keys in the books; and no key is
there twice.  So whatever happens, and whatever trades come in, none of them counts twice.

The invariant is `Accounts`.  It also says that the pending trades can be applied at all, without
which a pending trade might be booked that the position does not count.

Main statement: `applied_exactly_once`.
-/

namespace CostBasis

/-- A trade that a reconciler of the symbol can apply. -/
def Trade.Admissible (symbol : String) (t : Trade) : Prop :=
  t.symbol = symbol ∧ 0 < t.quantity.toRat ∧ 0 ≤ t.price.toRat

instance (symbol : String) (t : Trade) : Decidable (t.Admissible symbol) := by
  unfold Trade.Admissible
  infer_instance

namespace Reconciler

/-! ## The invariant -/

/-- The books of a reconciler that started with nothing are these trades. -/
structure Accounts (books : List Trade) (r : Reconciler) : Prop where
  position : Position.flat.afterAll r.terms books = .ok r.position
  nodup : (books.map Trade.key).Nodup
  applied : ∀ key, r.isApplied key = true ↔ key ∈ books.map Trade.key
  size : r.applied.size = books.length
  tradeCount : r.position.tradeCount = books.length
  /-- The books and the pending trades are sound. -/
  sound : ∀ t, t ∈ books ∨ t ∈ r.pending.toList → r.isSound t = true
  symbol : r.pending.symbol = r.symbol

variable {r s : Reconciler} {books handed : List Trade} {log : List Event} {t : Trade}

/-- What is looked at before a trade is kept is what makes it one that can be applied.
Source: the checks of the symbol, the quantity and the price in `process_trade_from`. -/
theorem isSound_iff : r.isSound t = true ↔ t.Admissible r.symbol := by
  unfold isSound Trade.Admissible
  rw [Bool.and_eq_true, Bool.and_eq_true, beq_iff_eq, Decimal.isPositive_iff, Bool.not_eq_true',
    ← Bool.not_eq_true, Decimal.isNegative_iff, not_lt, and_assoc]

/-- A new reconciler has empty books, a flat position and no pending trades. -/
theorem accounts_start (symbol : String) (terms : Terms) : Accounts [] (start symbol terms) where
  position := rfl
  nodup := List.nodup_nil
  applied key := by simp [isApplied, start]
  size := by simp [start]
  tradeCount := rfl
  sound t h := by simp [start] at h
  symbol := rfl

/-- Booking a new sound trade keeps the accounts, with the trade at the end of the books.  Its key
is new to the books, and it is counted once. -/
theorem Accounts.book {gain? : Option Gain} {position : Position} (h : Accounts books r)
    (hfresh : ¬r.isApplied t.key = true) (hsound : r.isSound t = true)
    (happly : r.position.apply r.terms t = .ok (gain?, position)) :
    Accounts (books ++ [t]) (r.book t position) := by
  have hnew : t.key ∉ books.map Trade.key := fun hmem => hfresh ((h.applied _).mpr hmem)
  constructor
  · exact Position.afterAll_append_singleton h.position happly
  · rw [List.map_append, List.map_singleton]
    exact h.nodup.append (List.nodup_singleton _) (List.disjoint_singleton.mpr hnew)
  · intro key
    rw [isApplied_book, h.applied, List.map_append, List.mem_append, List.map_singleton,
      List.mem_singleton, or_comm, eq_comm]
  · rw [size_applied_book hfresh, h.size, List.length_append, List.length_singleton]
  · have hpositive := (Decimal.isPositive_iff _).mpr (isSound_iff.mp hsound).2.1
    have hcount := Position.tradeCount_apply hpositive happly
    rw [List.length_append, List.length_singleton, ← h.tradeCount]
    exact hcount
  · intro u hu
    rw [List.mem_append, List.mem_singleton] at hu
    rcases hu with (hu | rfl) | hu
    · exact h.sound u (.inl hu)
    · exact hsound
    · exact h.sound u (.inr hu)
  · exact h.symbol

/-- **A small step keeps the accounts**, with the trades that it announces at the end of the
books. -/
theorem Accounts.step {es : List Event} (h : Accounts books r) (hstep : Step r handed es s) :
    Accounts (books ++ appliedIn es) s := by
  cases hstep with
  | ignored t hout =>
      rw [appliedIn_nil, List.append_nil]
      exact h
  | kept t fresh sound =>
      rw [appliedIn_nil, List.append_nil]
      refine { h with sound := ?_, symbol := ?_ }
      · intro u hu
        rcases hu with hu | hu
        · exact h.sound u (.inl hu)
        · have hsymbol : t.symbol = r.pending.symbol := by rw [h.symbol, (isSound_iff.mp sound).1]
          rcases (Pending.mem_toList_add hsymbol).mp hu with rfl | ⟨hmem, -⟩
          · exact sound
          · exact h.sound u (.inr hmem)
      · exact Pending.symbol_add.trans h.symbol
  | booked origin t gain? position fresh sound apply =>
      rw [appliedIn_announcements]
      exact h.book fresh sound apply
  | released t gain? position fresh pending apply =>
      rw [appliedIn_announcements]
      exact h.book fresh (h.sound t (.inr pending)) apply
  | forgotten leaves hleaves =>
      rw [appliedIn_nil, List.append_nil]
      refine { h with sound := ?_ }
      intro u hu
      rcases hu with hu | hu
      · exact h.sound u (.inl hu)
      · exact h.sound u (.inr ((Pending.mem_toList_discard leaves).mp hu).1)
  | announced =>
      rw [appliedIn_position, List.append_nil]
      exact h

/-- The accounts after small steps.  The induction adds one step at the end. -/
theorem Accounts.steps (h : Accounts books r) (hsteps : Steps r handed log s) :
    Accounts (books ++ appliedIn log) s := by
  induction hsteps with
  | none =>
      rw [appliedIn_nil, List.append_nil]
      exact h
  | snoc _ hstep ih =>
      rw [appliedIn_append, ← List.append_assoc]
      exact ih.step hstep

/-- A key that is in the books stays there, since no step takes one out.
Source: specification, section 3, where the set of applied keys never shrinks. -/
theorem Steps.isApplied_of_isApplied {key : TradeKey} (hsteps : Steps r handed log s)
    (hkey : r.isApplied key = true) : s.isApplied key = true := by
  induction hsteps with
  | none => exact hkey
  | snoc _ hstep ih =>
      cases hstep with
      | booked => exact (isApplied_book ..).mpr (.inr ih)
      | released => exact (isApplied_book ..).mpr (.inr ih)
      | ignored => exact ih
      | kept => exact ih
      | forgotten => exact ih
      | announced => exact ih

/-- The key of a trade that is announced is in the books.  It was booked in one of the steps, and
has stayed there in those behind it. -/
theorem Steps.isApplied_of_mem (hsteps : Steps r handed log s) (ht : t ∈ appliedIn log) :
    s.isApplied t.key = true := by
  induction hsteps with
  | none => simp at ht
  | snoc _ hstep ih =>
      rw [appliedIn_append, List.mem_append] at ht
      rcases ht with ht | ht
      · exact hstep.steps.isApplied_of_isApplied (ih ht)
      · cases hstep with
        | booked origin u =>
            obtain rfl : t = u := by simpa using ht
            exact (isApplied_book ..).mpr (.inl rfl)
        | released u =>
            obtain rfl : t = u := by simpa using ht
            exact (isApplied_book ..).mpr (.inl rfl)
        | ignored => simp at ht
        | kept => simp at ht
        | forgotten => simp at ht
        | announced => simp at ht

/-- A look at the pending trades applies those whose orders are known, unless their keys are in the
books already; either way they are in the books afterwards. -/
theorem isApplied_of_recheckWhen {told : Trade → Bool} {isNew : Bool}
    (ht : t ∈ r.pending.toList) (hknown : told t = true)
    (h : r.recheckWhen told = ⟨log, .ok (isNew, s)⟩) : s.isApplied t.key = true := by
  obtain ⟨hsteps, -⟩ := steps_of_recheckWhen h
  by_cases happlied : r.isApplied t.key = true
  · exact hsteps.isApplied_of_isApplied happlied
  · apply hsteps.isApplied_of_mem
    rw [appliedIn_of_recheckWhen h]
    exact mem_readyWhen.mpr ⟨ht, happlied, hknown⟩

/-- A trade whose key is in the books is not taken again, whatever else is in it. -/
theorem deliver_of_isApplied (ht : r.isApplied t.key = true) (isKnown : UInt64 → Bool)
    (origin : Origin) : r.deliver isKnown origin t = ⟨[], .ok (false, r)⟩ :=
  deliver_of_ignored (.inl ht)

end Reconciler

/-! ## All runs -/

/-- The books after a run from a fresh desk are the trades that its log reports. -/
theorem accounts_of_run_fresh {symbol : String} {terms : Terms} {settings : ServiceSettings}
    {known : KnownOrders} {happenings : List Happening} {c : Chronicle}
    (h : (Chronicle.opening (.fresh symbol terms settings known)).run happenings = .ok c) :
    c.reconciler.Accounts (appliedIn c.log) ∧ c.reconciler.symbol = symbol ∧
      c.reconciler.terms = terms := by
  have hsteps := Chronicle.steps_of_run_fresh h
  exact ⟨(Reconciler.accounts_start symbol terms).steps hsteps, hsteps.unchanged⟩

/-- **Each trade is applied once.**  After any run from a fresh desk the position is what the
applied trades add up to, one after another; their keys are distinct and are those that count as
applied; and the position counts as many trades.  A key that counts as applied does so for ever,
and a trade with such a key, whatever else is in it, has no effect.
Source: idempotence; specification, section 8. -/
theorem applied_exactly_once {symbol : String} {terms : Terms} {settings : ServiceSettings}
    {known : KnownOrders} {happenings : List Happening} {c : Chronicle}
    (h : (Chronicle.opening (.fresh symbol terms settings known)).run happenings = .ok c) :
    ((appliedIn c.log).map Trade.key).Nodup ∧
      Position.flat.afterAll terms (appliedIn c.log) = .ok c.reconciler.position ∧
      (∀ key, c.reconciler.isApplied key = true ↔ key ∈ (appliedIn c.log).map Trade.key) ∧
      c.reconciler.applied.size = (appliedIn c.log).length ∧
      c.reconciler.position.tradeCount = (appliedIn c.log).length ∧
      (∀ key, c.reconciler.isApplied key = true → ∀ later c', c.run later = .ok c' →
        c'.reconciler.isApplied key = true) ∧
      ∀ t isKnown origin, c.reconciler.isApplied t.key = true →
        c.reconciler.deliver isKnown origin t = ⟨[], .ok (false, c.reconciler)⟩ := by
  obtain ⟨haccounts, -, rfl⟩ := accounts_of_run_fresh h
  refine ⟨haccounts.nodup, haccounts.position, haccounts.applied, haccounts.size,
    haccounts.tradeCount, ?_, ?_⟩
  · intro key hkey later c' hlater
    obtain ⟨handed, log, hsteps, -, -⟩ := Chronicle.steps_of_run later hlater
    exact hsteps.isApplied_of_isApplied hkey
  · intro t isKnown origin ht
    exact Reconciler.deliver_of_isApplied ht isKnown origin

/-- On the sample day two trades are applied, each of which has come twice.  A trade with the key of
the second one has no effect at any price or quantity. -/
theorem applied_exactly_once_sampleDay :
    Yields (sampleOpening.run sampleDay) fun c =>
      (appliedIn c.log).map Trade.id = [1, 2] ∧ c.reconciler.position.tradeCount = 2 ∧
        c.reconciler.deliver (fun _ => true) .live (sampleTrade 2 .buy 7 7 7) =
          ⟨[], .ok (false, c.reconciler)⟩ := by
  have hday : Yields (sampleOpening.run sampleDay) fun c =>
      (appliedIn c.log).map Trade.id = [1, 2] ∧
        c.reconciler.isApplied (sampleTrade 2 .buy 7 7 7).key = true := by decide +kernel
  obtain ⟨c, hrun, hids, hkey⟩ := hday
  obtain ⟨-, -, -, -, hcount, -, hagain⟩ := applied_exactly_once hrun
  have hlength : (appliedIn c.log).length = 2 := by rw [← List.length_map, hids]; rfl
  exact ⟨c, hrun, hids, hcount.trans hlength, hagain _ _ _ hkey⟩

end CostBasis
