import TradingSystem.BookInvariant
import Mathlib.Data.List.Sort

/-!
# Price-time priority, stated directly

An engine without levels, deques or an index: one collection of resting
orders in no particular order, sorted anew for every submission. Time is a
natural number that never wraps. This is what the matching engine is for;
`PriceTimePriority` shows that the engine does it.
-/

namespace TradingSystem.Reference

structure Resting (P : Type) where
  id : UInt64
  side : Side
  price : P
  remaining : UInt64
  arrival : ℕ

structure Engine (P : Type) where
  resting : List (Resting P)
  collar : PriceCollar P
  lastPrice : Option P
  clock : ℕ

/-- What matching leaves of an incoming order and of the orders it met. -/
structure Outcome (P : Type) where
  trades : List (Trade P)
  unfilled : UInt64
  left : List (Resting P)

variable {P : Type} [LinearOrder P]

/-- What decides priority: the price and the time of arrival. -/
def Resting.key (r : Resting P) : P × ℕ := (r.price, r.arrival)

/-- Best price first, then the earlier arrival. -/
def precedes (s : Side) (a b : Resting P) : Prop :=
  better s a.price b.price ∨ a.price = b.price ∧ a.arrival ≤ b.arrival

instance (s : Side) : DecidableRel (precedes (P := P) s) := fun a b =>
  inferInstanceAs (Decidable (better s a.price b.price ∨ a.price = b.price ∧ a.arrival ≤ b.arrival))

/-- A limit order trades with prices within its limit, a market order with all. -/
def crosses (o : Order P) (r : Resting P) : Bool :=
  match o.type, o.side with
  | .market, _ => true
  | .limit, .buy => decide (r.price ≤ o.price)
  | .limit, .sell => decide (o.price ≤ r.price)

def trade (o : Order P) (r : Resting P) (quantity : UInt64) (time : ℕ) : Trade P where
  buyOrderId := match o.side with
    | .buy => o.orderId
    | .sell => r.id
  sellOrderId := match o.side with
    | .buy => r.id
    | .sell => o.orderId
  price := r.price
  quantity := quantity
  timestamp := UInt64.ofNat time

/-- Fill `o`, of which `unfilled` is open, from one order after another. -/
def fillAll (o : Order P) : UInt64 → ℕ → List (Resting P) → Outcome P
  | unfilled, _, [] => ⟨[], unfilled, []⟩
  | unfilled, time, r :: rs =>
    if unfilled = 0 then ⟨[], 0, r :: rs⟩
    else
      let fill := min unfilled r.remaining
      let out := fillAll o (unfilled - fill) (time + 1) rs
      { trades := trade o r fill time :: out.trades
        unfilled := out.unfilled
        left :=
          if r.remaining - fill = 0 then out.left
          else { r with remaining := r.remaining - fill } :: out.left }

namespace Engine

/-- The other side's orders in priority order. -/
def ranked (e : Engine P) (o : Order P) : List (Resting P) :=
  (e.resting.filter (·.side == o.side.opposite)).insertionSort (precedes o.side.opposite)

def matching (e : Engine P) (o : Order P) : Outcome P :=
  fillAll o o.quantity (e.clock + 1) ((e.ranked o).filter (crosses o))

/-- The remainder that goes to rest, if any. -/
def remainder (e : Engine P) (o : Order P) (unfilled : UInt64) : List (Resting P) :=
  if 0 < unfilled ∧ o.type = .limit then
    [⟨o.orderId, o.side, o.price, unfilled, e.clock⟩]
  else []

def accept (e : Engine P) (o : Order P) : Engine P :=
  let out := e.matching o
  { e with
    resting := e.remainder o out.unfilled ++ (out.left ++
      ((e.ranked o).filter (fun r => !crosses o r) ++ e.resting.filter (·.side == o.side)))
    lastPrice := (out.trades.getLast?.map (·.price)).or e.lastPrice
    clock := e.clock + 1 + out.trades.length }

def cancel (e : Engine P) (id : UInt64) : Engine P × Bool :=
  ({ e with resting := e.resting.filter (fun r => !(r.id == id)) }, e.resting.any (·.id == id))

variable [PriceArith P]

def new (collarBandPercent : P) : Engine P :=
  ⟨[], .new collarBandPercent, none, 1⟩

def verdict (e : Engine P) (o : Order P) : CollarResult :=
  match o.type with
  | .limit => e.collar.check o.price e.lastPrice
  | .market => ⟨true, .none⟩

def submit (e : Engine P) (o : Order P) : Engine P × SubmitResult P :=
  if (e.verdict o).accepted then (e.accept o, .trades (e.matching o).trades)
  else ({ e with clock := e.clock + 1 }, .rejection ⟨o.orderId, (e.verdict o).reason⟩)

def call (e : Engine P) : Call P → Engine P × Reply P
  | .submit o => ((e.submit o).1, .submitted (e.submit o).2)
  | .cancel id => ((e.cancel id).1, .cancelled (e.cancel id).2)

def run (e : Engine P) (calls : List (Call P)) : Engine P × List (Reply P) :=
  Machine.run call e calls

end Engine

end TradingSystem.Reference
