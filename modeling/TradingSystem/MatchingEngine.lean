import TradingSystem.OrderBook
import TradingSystem.PriceCollar
import TradingSystem.Lib.Loop
import TradingSystem.Lib.Machine

/-!
# The matching engine

`include/matching_engine.hpp` and `src/matching_engine.cpp`. The loop of
`match_against` is `matchStep`, one round on the variables it works on,
iterated by `Loop.run`; every round that does not fill the incoming order
removes a resting one, which bounds the rounds.
-/

namespace TradingSystem

structure Rejection where
  orderId : UInt64
  reason : RejectReason
  deriving DecidableEq, Repr

inductive SubmitResult (P : Type) where
  | trades (ts : List (Trade P))
  | rejection (r : Rejection)
  deriving DecidableEq, Repr

structure MatchingEngine (P : Type) where
  book : OrderBook P
  collar : PriceCollar P
  lastPrice : Option P
  nextTimestamp : UInt64

/-- What `match_against` reads and writes: its arguments and the members of
the engine it touches. `opposite` is the map of the other side. -/
structure MatchState (P : Type) where
  incoming : Order P
  opposite : Levels P
  trades : List (Trade P)
  cancelIndex : UInt64 → Option (CancelInfo P)
  lastPrice : Option P
  nextTimestamp : UInt64

section
variable {P : Type}

def fillQuantity (incoming front : Order P) : UInt64 :=
  min incoming.remainingQuantity front.remainingQuantity

def makeTrade (incoming front : Order P) (timestamp : UInt64) : Trade P where
  price := front.price
  quantity := fillQuantity incoming front
  timestamp := timestamp
  buyOrderId := match incoming.side with
    | .buy => incoming.orderId
    | .sell => front.orderId
  sellOrderId := match incoming.side with
    | .buy => front.orderId
    | .sell => incoming.orderId

/-- The order with `fill` taken off its remaining quantity. -/
def Order.take (o : Order P) (fill : UInt64) : Order P :=
  { o with remainingQuantity := o.remainingQuantity - fill }

/-- The rest of the loop body once the front order is known: the trade, the
two subtractions, and the removal of a filled order and of an emptied level. -/
def MatchState.fill (s : MatchState P) (restingPrice : P) (front : Order P)
    (queue : List (Order P)) (rest : Levels P) : MatchState P :=
  let fill := fillQuantity s.incoming front
  let front' := front.take fill
  { incoming := s.incoming.take fill
    trades := s.trades ++ [makeTrade s.incoming front s.nextTimestamp]
    lastPrice := some front.price
    nextTimestamp := s.nextTimestamp + 1
    cancelIndex :=
      if front'.remainingQuantity = 0 then Function.update s.cancelIndex front.orderId none
      else s.cancelIndex
    opposite :=
      if front'.remainingQuantity = 0 then
        if queue.isEmpty then rest else (restingPrice, queue) :: rest
      else (restingPrice, front' :: queue) :: rest }

variable [LT P] [DecidableLT P]

/-- The two `break`s of the loop. -/
def Order.stopsAt (o : Order P) (restingPrice : P) : Bool :=
  o.type == .limit &&
    ((o.side == .buy && decide (o.price < restingPrice)) ||
      (o.side == .sell && decide (restingPrice < o.price)))

def matchStep (s : MatchState P) : Option (MatchState P) :=
  if 0 < s.incoming.remainingQuantity then
    match s.opposite with
    | [] => none
    | (restingPrice, dq) :: rest =>
      if s.incoming.stopsAt restingPrice then none
      else match dq with
        -- `front()` of an empty deque is undefined; no reachable book has one
        | [] => none
        | front :: queue => some (s.fill restingPrice front queue rest)
  else none

/-- Rounds left: one for each resting order, one more while the incoming
order is not filled. -/
def MatchState.rounds (s : MatchState P) : Nat :=
  s.opposite.orders.length + if 0 < s.incoming.remainingQuantity then 1 else 0

def matchAgainst (s : MatchState P) : MatchState P := Loop.run matchStep s.rounds s

end

namespace MatchingEngine

variable {P : Type}

/-- `incoming` with its timestamp drawn and nothing filled yet. -/
def stamp (e : MatchingEngine P) (incoming : Order P) : Order P :=
  { incoming with
    timestamp := e.nextTimestamp
    remainingQuantity := incoming.quantity }

/-- `next_timestamp_++`. -/
def tick (e : MatchingEngine P) : MatchingEngine P :=
  { e with nextTimestamp := e.nextTimestamp + 1 }

/-- The call of `match_against` on the map of the other side. -/
def enter (e : MatchingEngine P) (incoming : Order P) : MatchState P where
  incoming := incoming
  opposite := e.book.levels incoming.side.opposite
  trades := []
  cancelIndex := e.book.cancelIndex
  lastPrice := e.lastPrice
  nextTimestamp := e.nextTimestamp

/-- The engine's members as `match_against` left them. -/
def leave (e : MatchingEngine P) (s : MatchState P) : MatchingEngine P :=
  { e with
    book := { e.book.setLevels s.incoming.side.opposite s.opposite with
      cancelIndex := s.cancelIndex }
    lastPrice := s.lastPrice
    nextTimestamp := s.nextTimestamp }

variable [LT P] [DecidableLT P]

/-- A remainder of a limit order rests, one of a market order is discarded. -/
def rest (e : MatchingEngine P) (incoming : Order P) : MatchingEngine P :=
  if 0 < incoming.remainingQuantity ∧ incoming.type = .limit then
    { e with book := e.book.addRestingOrder incoming }
  else e

def cancelOrder (e : MatchingEngine P) (id : UInt64) : MatchingEngine P × Bool :=
  let r := e.book.cancelOrder id
  ({ e with book := r.1 }, r.2)

variable [PriceArith P]

def new (collarBandPercent : P) : MatchingEngine P where
  book := .empty
  collar := .new collarBandPercent
  lastPrice := none
  nextTimestamp := 1

/-- The collar's verdict; market orders bypass it. -/
def collarCheck (e : MatchingEngine P) (incoming : Order P) : CollarResult :=
  match incoming.type with
  | .limit => e.collar.check incoming.price e.lastPrice
  | .market => ⟨true, .none⟩

def submitOrder (e : MatchingEngine P) (order : Order P) : MatchingEngine P × SubmitResult P :=
  let incoming := e.stamp order
  let e' := e.tick
  let result := e'.collarCheck incoming
  if result.accepted then
    let s := matchAgainst (e'.enter incoming)
    ((e'.leave s).rest s.incoming, .trades s.trades)
  else (e', .rejection ⟨incoming.orderId, result.reason⟩)

end MatchingEngine

/-- The calls a client of the engine can make. -/
inductive Call (P : Type) where
  | submit (o : Order P)
  | cancel (id : UInt64)
  deriving DecidableEq, Repr

/-- The ids of the submissions among the calls, in order. -/
def submittedIds {P : Type} (calls : List (Call P)) : List UInt64 :=
  calls.filterMap fun
    | .submit o => some o.orderId
    | .cancel _ => none

inductive Reply (P : Type) where
  | submitted (r : SubmitResult P)
  | cancelled (found : Bool)
  deriving DecidableEq, Repr

namespace MatchingEngine

variable {P : Type} [LT P] [DecidableLT P] [PriceArith P]

def call (e : MatchingEngine P) : Call P → MatchingEngine P × Reply P
  | .submit o => ((e.submitOrder o).1, .submitted (e.submitOrder o).2)
  | .cancel id => ((e.cancelOrder id).1, .cancelled (e.cancelOrder id).2)

/-- A whole run: the engine after the calls and what each call returned. -/
def run (e : MatchingEngine P) (calls : List (Call P)) : MatchingEngine P × List (Reply P) :=
  Machine.run call e calls

section
variable (e : MatchingEngine P)

theorem run_cons (c : Call P) (calls : List (Call P)) :
    e.run (c :: calls) =
      (((e.call c).1.run calls).1, (e.call c).2 :: ((e.call c).1.run calls).2) := rfl

theorem run_append (calls more : List (Call P)) :
    e.run (calls ++ more) =
      (((e.run calls).1.run more).1, (e.run calls).2 ++ ((e.run calls).1.run more).2) :=
  Machine.run_append _ _ _

theorem run_snoc (calls : List (Call P)) (c : Call P) :
    e.run (calls ++ [c]) =
      (((e.run calls).1.call c).1, (e.run calls).2 ++ [((e.run calls).1.call c).2]) :=
  Machine.run_snoc _ _ _

end

end MatchingEngine

end TradingSystem
