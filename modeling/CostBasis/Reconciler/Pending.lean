import CostBasis.Trade
import Std.Data.ExtTreeMap

/-!
# Pending trades

The trades of one symbol whose orders are not known yet, by their numbers.
-/

namespace CostBasis

/-- The pending trades of one symbol.
Source: `TradeStore`; specification, sections 4.2 and A5.  Its keys are the numbers alone, since it
is of one symbol. -/
structure Pending where
  /-- The symbol that is traded. -/
  symbol : String
  /-- The trades by their numbers. -/
  byId : Std.ExtTreeMap UInt64 Trade
  /-- A trade stands under its own number, and has the symbol. -/
  keyed : ∀ (id : UInt64) (t : Trade), byId[id]? = some t → t.id = id ∧ t.symbol = symbol
deriving DecidableEq

namespace Pending

/-- No trade is pending. -/
def empty (symbol : String) : Pending := ⟨symbol, ∅, by simp⟩

/-- Keeps a trade, in place of one with the same number.  A trade of another symbol is ignored.
Source: `add` of `TradeStore`. -/
def add (p : Pending) (t : Trade) : Pending :=
  if h : t.symbol = p.symbol then
    { p with
      byId := p.byId.insert t.id t
      keyed := by
        intro id u hu
        rw [Std.ExtTreeMap.getElem?_insert] at hu
        split at hu
        · next heq =>
            obtain rfl := Option.some.inj hu
            exact ⟨Std.LawfulEqCmp.eq_of_compare heq, h⟩
        · exact p.keyed id u hu }
  else p

/-- The trades by ascending number.
Source: `trades`. -/
def toList (p : Pending) : List Trade := p.byId.toList.map (·.2)

/-- The trades without those that satisfy `leaves`.
Source: `filter`, less what its predicate does beside its answer. -/
def discard (p : Pending) (leaves : Trade → Bool) : Pending :=
  { p with
    byId := p.byId.filter fun _ t => !leaves t
    keyed := by
      intro id t ht
      rw [Std.ExtTreeMap.getElem?_filter', Option.filter_eq_some_iff] at ht
      exact p.keyed id t ht.1 }

/-- Whether a trade with that key is pending.
Source: `exists` of `TradeStore`. -/
def contains (p : Pending) (key : TradeKey) : Bool :=
  key.symbol == p.symbol && p.byId.contains key.id

/-- The number of trades.
Source: `len`. -/
def size (p : Pending) : Nat := p.byId.size

end Pending

end CostBasis
