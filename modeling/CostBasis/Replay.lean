import CostBasis.Position

/-!
# Replay of a history

A replay takes the whole history of a market in batches and keeps, beside the position, the trades
themselves, the volumes bought and sold, and the checkpoints: the trades after which nothing was
open.  A batch is looked through before any of it is applied, so a batch with a flaw changes
nothing.
-/

namespace CostBasis

/-- What makes a trade unfit for a replay.
Source: the reasons in `validate`. -/
inductive Flaw where
  /-- The quantity is zero or negative. -/
  | quantity
  /-- The price is negative. -/
  | price
  /-- The fee is negative. -/
  | fee
  /-- The trade is older than the one before it. -/
  | chronology
deriving DecidableEq, Repr

/-- The wording of a flaw. -/
def Flaw.message : Flaw → String
  | .quantity => "quantity must be positive"
  | .price => "price must not be negative"
  | .fee => "fee must not be negative"
  | .chronology => "trade is out of chronological order"

/-- The reasons for which a batch is not taken.
Source: those of `AccountingError` that come from `add_trades`. -/
inductive Rejection where
  /-- A trade has another symbol than the market. -/
  | foreign (key : TradeKey) (expected : String)
  /-- A trade has a flaw. -/
  | flawed (key : TradeKey) (flaw : Flaw)
  /-- The position and the sum of the quantities have come apart. -/
  | diverged (key : TradeKey) (base total : Decimal)
deriving DecidableEq

/-- The wording of a rejection. -/
def Rejection.message : Rejection → String
  | .foreign key expected =>
    "trade " ++ key.toText ++ " belongs to " ++ key.symbol ++ ", expected " ++ expected
  | .flawed key flaw => "invalid trade " ++ key.toText ++ ": " ++ flaw.message
  | .diverged key base total =>
    "accounting invariant violated: ledger quantity " ++ base.toText ++
      " diverged from replayed quantity " ++ total.toText ++ " at trade " ++ key.toText

/-- A trade after which nothing was open.
Source: `Checkpoint`; specification, sections 3 and 4.5. -/
structure Checkpoint where
  /-- The place of the trade in the history, from zero. -/
  index : Nat
  /-- The number of the trade. -/
  tradeId : UInt64
  /-- The time of the trade. -/
  time : Instant
deriving DecidableEq

/-- The state of a replay.
Source: `StockDistribution`; specification, section A8. -/
structure Replay where
  /-- What the trades add up to. -/
  position : Position
  /-- The trades taken so far. -/
  trades : Array Trade
  /-- The trades after which nothing was open. -/
  checkpoints : List Checkpoint
  /-- The sum of the signed quantities, kept apart from the position. -/
  quantity : Decimal
  /-- The quantity bought. -/
  buyVolume : Decimal
  /-- The quantity sold. -/
  sellVolume : Decimal
deriving DecidableEq

namespace Replay

/-- The replay before any trade. -/
def start : Replay where
  position := .flat
  trades := #[]
  checkpoints := []
  quantity := .zero
  buyVolume := .zero
  sellVolume := .zero

instance : Inhabited Replay := ⟨start⟩

/-! ## Looking through a batch -/

/-- The first flaw of a trade that follows one at the time `last`.
Source: the order of the checks in `validate`. -/
def flaw? (last : Option Instant) (t : Trade) : Option Flaw :=
  if !t.quantity.isPositive then some .quantity
  else if t.price.isNegative then some .price
  else if t.fee.isNegative then some .fee
  else if last.any fun last => decide (t.time < last) then some .chronology
  else none

/-- The first reason not to take a batch that follows a trade at the time `last`.
Source: `validate`. -/
def objection? (symbol : String) (last : Option Instant) : List Trade → Option Rejection
  | [] => none
  | t :: ts =>
    if t.symbol ≠ symbol then some (.foreign t.key symbol)
    else match flaw? last t with
      | some flaw => some (.flawed t.key flaw)
      | none => objection? symbol (some t.time) ts

/-! ## Taking a batch -/

/-- Takes one trade.  The result says whether it left a checkpoint.
Source: the loop body of `add_trades`. -/
def enter (terms : Terms) (r : Replay) (t : Trade) :
    Except Fault (Except Rejection (Option Checkpoint) × Replay) := do
  let position ← r.position.after terms t
  let quantity ← r.quantity.add t.signedQuantity
  let r := { r with position, quantity }
  if !position.base.isEqual quantity then
    return (.error (.diverged t.key position.base quantity), r)
  let r ← match t.side with
    | .buy => do
      let buyVolume ← r.buyVolume.add t.quantity
      pure { r with buyVolume }
    | .sell => do
      let sellVolume ← r.sellVolume.add t.quantity
      pure { r with sellVolume }
  let checkpoint := if quantity.isZero then some ⟨r.trades.size, t.id, t.time⟩ else none
  return (.ok checkpoint, { r with trades := r.trades.push t })

/-- Takes the trades of a batch one after another and collects the checkpoints. -/
def enterAll (terms : Terms) (r : Replay) :
    List Trade → Except Fault (Except Rejection (List Checkpoint) × Replay)
  | [] => return (.ok [], r)
  | t :: ts => do
    match ← r.enter terms t with
    | (.error e, r) => return (.error e, r)
    | (.ok checkpoint, r) => do
      let (found, r) ← r.enterAll terms ts
      return (found.map (checkpoint.toList ++ ·), r)

/-- The trades of a batch that are begun: all of them, or those up to the first that cannot be
taken.
Source: the loop of `add_trades`, as far as a fault lets it go. -/
def begun (terms : Terms) (r : Replay) : List Trade → List Trade
  | [] => []
  | t :: ts =>
    match r.enter terms t with
    | .ok (.ok _, r) => t :: r.begun terms ts
    | _ => [t]

/-- Takes a batch, and says which checkpoints it left.
Source: `add_trades`.  A fault of the arithmetic stops the program in the middle of a batch; there
is no replay after it. -/
def append (terms : Terms) (r : Replay) (batch : List Trade) :
    Except Fault (Except Rejection (List Checkpoint) × Replay) := do
  match objection? terms.market.symbol (r.trades.back?.map (·.time)) batch with
  | some e => return (.error e, r)
  | none =>
    match ← r.enterAll terms batch with
    | (.error e, r) => return (.error e, r)
    | (.ok found, r) => return (.ok found, { r with checkpoints := r.checkpoints ++ found })

/-- The amount that is still open.
Source: `stock`. -/
def stock (r : Replay) : Decimal := r.position.base

end Replay

end CostBasis
