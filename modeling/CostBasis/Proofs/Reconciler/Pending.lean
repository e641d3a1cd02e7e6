import CostBasis.Reconciler.Pending
import Mathlib

/-!
# The pending trades as a list

What keeping and discarding do to the list of pending trades.  The numbers of the trades in the list
are distinct, so of several trades with one key the list has only the one that came last.

Main statements: `mem_toList_add`, `mem_toList_discard`, `add_add_comm`, `toList_foldl_add`,
`nodup_keys`.
-/

namespace CostBasis

namespace Pending

variable {p : Pending} {t u : Trade}

/-- A trade is pending if it stands under its number, and it stands under no other one. -/
theorem mem_toList : t ∈ p.toList ↔ p.byId[t.id]? = some t := by
  unfold toList
  constructor
  · intro h
    obtain ⟨⟨id, u⟩, hmem, rfl⟩ := List.mem_map.mp h
    have hget := Std.ExtTreeMap.mem_toList_iff_getElem?_eq_some.mp hmem
    rw [(p.keyed id u hget).1]
    exact hget
  · intro h
    exact List.mem_map.mpr ⟨(t.id, t), Std.ExtTreeMap.mem_toList_iff_getElem?_eq_some.mpr h, rfl⟩

/-- All pending trades have the symbol. -/
theorem symbol_of_mem (h : t ∈ p.toList) : t.symbol = p.symbol :=
  (p.keyed t.id t (mem_toList.mp h)).2

/-- At first no trade is pending. -/
@[simp] theorem toList_empty (symbol : String) : (empty symbol).toList = [] := by
  rw [List.eq_nil_iff_forall_not_mem]
  intro t h
  have hget := mem_toList.mp h
  simp [empty] at hget

/-- As many trades are in the list as are kept. -/
theorem length_toList (p : Pending) : p.toList.length = p.size := by
  unfold toList size
  rw [List.length_map, Std.ExtTreeMap.length_toList]

/-- To keep a trade does not change the symbol. -/
@[simp] theorem symbol_add : (p.add t).symbol = p.symbol := by
  unfold add
  by_cases h : t.symbol = p.symbol
  · rw [dif_pos h]
  · rw [dif_neg h]

/-- To keep several trades does not change the symbol. -/
@[simp] theorem symbol_foldl_add (ts : List Trade) : (ts.foldl add p).symbol = p.symbol := by
  induction ts generalizing p with
  | nil => rfl
  | cons t ts ih => rw [List.foldl_cons, ih, symbol_add]

/-- A trade of the symbol takes the place of one with its number, and the others stay.
Source: `add` of `TradeStore`. -/
theorem mem_toList_add (h : t.symbol = p.symbol) :
    u ∈ (p.add t).toList ↔ u = t ∨ u ∈ p.toList ∧ u.id ≠ t.id := by
  rw [mem_toList, mem_toList, add, dif_pos h, Std.ExtTreeMap.getElem?_insert]
  by_cases hid : t.id = u.id
  · rw [if_pos (Std.LawfulEqCmp.compare_eq_iff_eq.mpr hid), Option.some.injEq]
    constructor
    · intro htu
      exact .inl htu.symm
    · rintro (rfl | ⟨-, hne⟩)
      · rfl
      · exact absurd hid.symm hne
  · rw [if_neg fun heq => hid (Std.LawfulEqCmp.eq_of_compare heq)]
    constructor
    · intro hget
      exact .inr ⟨hget, fun heq => hid heq.symm⟩
    · rintro (rfl | ⟨hget, -⟩)
      · exact absurd rfl hid
      · exact hget

/-- Adding a trade makes no other one pending. -/
theorem eq_or_mem_of_mem_add (h : u ∈ (p.add t).toList) : u = t ∨ u ∈ p.toList := by
  by_cases hsymbol : t.symbol = p.symbol
  · exact ((mem_toList_add hsymbol).mp h).imp_right And.left
  · rw [add, dif_neg hsymbol] at h
    exact .inr h

/-- What is discarded is no longer pending, and all the rest still is.
Source: `filter` of `TradeStore`. -/
theorem mem_toList_discard (leaves : Trade → Bool) :
    t ∈ (p.discard leaves).toList ↔ t ∈ p.toList ∧ leaves t = false := by
  rw [mem_toList, mem_toList, discard, Std.ExtTreeMap.getElem?_filter', Option.filter_eq_some_iff,
    Bool.not_eq_true']

/-! ### Keeping trades in another order -/

/-- Pending trades of one symbol are told apart by what stands under the numbers. -/
theorem eq_of_getElem? {q : Pending} (hsymbol : p.symbol = q.symbol)
    (h : ∀ id : UInt64, p.byId[id]? = q.byId[id]?) : p = q := by
  obtain ⟨symbol, byId, keyed⟩ := p
  obtain ⟨symbol', byId', keyed'⟩ := q
  obtain rfl : symbol = symbol' := hsymbol
  obtain rfl : byId = byId' := Std.ExtTreeMap.ext_getElem? h
  rfl

/-- Without a trade there is nothing but the symbol, so two empty collections of a symbol are
one. -/
theorem eq_empty_of_toList (h : p.toList = []) : p = empty p.symbol := by
  refine eq_of_getElem? rfl fun id => ?_
  have hnone : p.byId[id]? = none := by
    rw [Option.eq_none_iff_forall_ne_some]
    intro t ht
    have hmem : t ∈ p.toList := mem_toList.mpr ((p.keyed id t ht).1 ▸ ht)
    rw [h] at hmem
    exact absurd hmem List.not_mem_nil
  rw [hnone, empty]
  exact Std.ExtTreeMap.getElem?_empty.symm

/-- Under its number stands the trade that was kept last; a trade of another symbol is not kept. -/
theorem getElem?_byId_add (id : UInt64) :
    (p.add t).byId[id]? = if t.symbol = p.symbol ∧ t.id = id then some t else p.byId[id]? := by
  unfold add
  by_cases h : t.symbol = p.symbol
  · rw [dif_pos h, Std.ExtTreeMap.getElem?_insert]
    simp only [h, true_and, Std.LawfulEqCmp.compare_eq_iff_eq]
  · rw [dif_neg h, if_neg fun hboth => h hboth.1]

/-- Keeping a trade once more changes nothing. -/
theorem add_add_self : (p.add t).add t = p.add t := by
  refine eq_of_getElem? symbol_add fun id => ?_
  rw [getElem?_byId_add, getElem?_byId_add, symbol_add]
  split <;> rfl

/-- It does not matter in which order trades with different numbers are kept. -/
theorem add_add_comm (h : t.id ≠ u.id) : (p.add t).add u = (p.add u).add t := by
  refine eq_of_getElem? (by simp only [symbol_add]) fun id => ?_
  simp only [getElem?_byId_add, symbol_add]
  by_cases ht : t.symbol = p.symbol ∧ t.id = id
  · rw [if_pos ht, if_pos ht, if_neg fun hu => h (ht.2.trans hu.2.symm)]
  · rw [if_neg ht, if_neg ht]

/-- A key of the symbol stays pending when a trade is kept: the trade that makes room has the same
key. -/
theorem exists_key_add {key : TradeKey} (h : t.symbol = p.symbol) :
    (∃ u ∈ (p.add t).toList, u.key = key) ↔ t.key = key ∨ ∃ u ∈ p.toList, u.key = key := by
  constructor
  · rintro ⟨u, hu, rfl⟩
    rcases (mem_toList_add h).mp hu with rfl | ⟨hmem, -⟩
    · exact .inl rfl
    · exact .inr ⟨u, hmem, rfl⟩
  · rintro (rfl | ⟨u, hu, rfl⟩)
    · exact ⟨t, (mem_toList_add h).mpr (.inl rfl), rfl⟩
    · -- A pending trade with the number of `t` is replaced by `t`, which has the same key.
      by_cases hid : u.id = t.id
      · refine ⟨t, (mem_toList_add h).mpr (.inl rfl), ?_⟩
        rw [Trade.key, Trade.key, hid, h, symbol_of_mem hu]
      · exact ⟨u, (mem_toList_add h).mpr (.inr ⟨hu, hid⟩), rfl⟩

/-! ### The order of the list -/

/-- The pending trades come by ascending number.  That is the order in which a look applies them. -/
theorem pairwise_toList (p : Pending) : p.toList.Pairwise fun t u => t.id < u.id := by
  unfold toList
  rw [List.pairwise_map]
  refine List.Pairwise.imp_of_mem ?_ p.byId.ordered_keys_toList
  rintro ⟨i, t⟩ ⟨j, u⟩ ht hu hlt
  have hi := (p.keyed i t (Std.ExtTreeMap.mem_toList_iff_getElem?_eq_some.mp ht)).1
  have hj := (p.keyed j u (Std.ExtTreeMap.mem_toList_iff_getElem?_eq_some.mp hu)).1
  show t.id < u.id
  rw [hi, hj]
  exact Std.compare_eq_lt.mp hlt

/-- Ascending numbers are distinct. -/
theorem nodup_map_id_of_pairwise {ts : List Trade} (h : ts.Pairwise fun t u => t.id < u.id) :
    (ts.map Trade.id).Nodup := by
  rw [List.Nodup, List.pairwise_map]
  exact h.imp UInt64.ne_of_lt

/-- Trades with distinct numbers are all kept.  The induction is on the trades, over what was
pending before. -/
theorem mem_toList_foldl_add (ts : List Trade) : ∀ {p : Pending},
    (∀ t ∈ ts, t.symbol = p.symbol) → (ts.map Trade.id).Nodup →
      (u ∈ (ts.foldl add p).toList ↔ u ∈ ts ∨ u ∈ p.toList ∧ u.id ∉ ts.map Trade.id) := by
  induction ts with
  | nil =>
      intro p _ _
      simp
  | cons t ts ih =>
      intro p hsymbol hnodup
      obtain ⟨ht, hts⟩ := List.forall_mem_cons.mp hsymbol
      rw [List.map_cons, List.nodup_cons] at hnodup
      obtain ⟨hnew, hnodup⟩ := hnodup
      rw [List.foldl_cons, ih (fun v hv => (hts v hv).trans symbol_add.symm) hnodup,
        mem_toList_add ht, List.mem_cons, List.map_cons, List.mem_cons, not_or]
      constructor
      · rintro (hmem | ⟨rfl | ⟨hmem, hne⟩, hnot⟩)
        · exact .inl (.inr hmem)
        · exact .inl (.inl rfl)
        · exact .inr ⟨hmem, hne, hnot⟩
      · rintro ((rfl | hmem) | ⟨hmem, hne, hnot⟩)
        · exact .inr ⟨.inl rfl, hnew⟩
        · exact .inl hmem
        · exact .inr ⟨.inr ⟨hmem, hne⟩, hnot⟩

/-- **Trades that are kept come by ascending number**, in whatever order they came, if their numbers
are distinct. -/
theorem toList_foldl_add {symbol : String} {ts us : List Trade}
    (hsymbol : ∀ t ∈ ts, t.symbol = symbol) (hperm : us.Perm ts)
    (hsorted : us.Pairwise fun t u => t.id < u.id) :
    (ts.foldl add (empty symbol)).toList = us := by
  have hids : (ts.map Trade.id).Nodup :=
    (hperm.map Trade.id).nodup_iff.mp (nodup_map_id_of_pairwise hsorted)
  have hall : (ts.foldl add (empty symbol)).toList.Perm us := by
    refine (List.perm_ext_iff_of_nodup
      (.of_map Trade.id (nodup_map_id_of_pairwise (pairwise_toList _)))
      (.of_map Trade.id (nodup_map_id_of_pairwise hsorted))).mpr fun u => ?_
    rw [mem_toList_foldl_add ts hsymbol hids, toList_empty, hperm.mem_iff]
    simp
  refine List.Perm.eq_of_pairwise ?_ (pairwise_toList _) hsorted hall
  intro t u _ _ hlt hgt
  exact absurd (Std.lt_trans hlt hgt) Std.lt_irrefl

/-- No two pending trades have the same key, as they have one symbol and distinct numbers. -/
theorem nodup_keys (p : Pending) : (p.toList.map Trade.key).Nodup := by
  rw [List.Nodup, List.pairwise_map]
  exact p.pairwise_toList.imp fun hlt hkey => UInt64.ne_of_lt hlt (congrArg TradeKey.id hkey)

end Pending

end CostBasis
