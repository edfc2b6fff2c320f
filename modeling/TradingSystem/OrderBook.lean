import Mathlib.Logic.Function.Basic
import TradingSystem.Order
import TradingSystem.Lib.OrderedMap

/-!
# The order book

`include/order_book.hpp` and `src/order_book.cpp`: two price-keyed maps of
FIFO deques and an index from order id to the level the order rests on.
-/

namespace TradingSystem

open OrderedMap

/-- One side of the book: price levels, best price first, each with its
deque, oldest order first. -/
abbrev Levels (P : Type) := List (P × List (Order P))

namespace Levels

variable {P : Type}

/-- The orders of a side in the order an incoming order meets them. -/
def orders (m : Levels P) : List (Order P) := m.flatMap Prod.snd

@[simp] theorem orders_nil : orders ([] : Levels P) = [] := rfl

@[simp] theorem orders_cons (p : P) (dq : List (Order P)) (m : Levels P) :
    orders ((p, dq) :: m) = dq ++ orders m := rfl

@[simp] theorem orders_append (m m' : Levels P) : orders (m ++ m') = orders m ++ orders m' := by
  simp [orders]

theorem orders_entry (p : P) (dq : Option (List (Order P))) :
    orders (dq.toList.map (Prod.mk p)) = dq.getD [] := by
  cases dq <;> simp

theorem mem_orders {m : Levels P} {o : Order P} : o ∈ orders m ↔ ∃ e ∈ m, o ∈ e.2 := by
  simp [orders]

end Levels

section
variable {P : Type} [LT P]

/-- The comparator of each map: `std::greater` for bids, `std::less` for asks. -/
def better : Side → P → P → Prop
  | .buy, a, b => b < a
  | .sell, a, b => a < b

instance [DecidableLT P] (s : Side) : DecidableRel (better (P := P) s) :=
  match s with
  | .buy => fun a b => inferInstanceAs (Decidable (b < a))
  | .sell => fun a b => inferInstanceAs (Decidable (a < b))

end

structure CancelInfo (P : Type) where
  side : Side
  price : P
  deriving DecidableEq, Repr

/-- `cancelIndex` holds at most one entry for each id, whatever the book holds. -/
structure OrderBook (P : Type) where
  bids : Levels P
  asks : Levels P
  cancelIndex : UInt64 → Option (CancelInfo P)

namespace OrderBook

variable {P : Type}

def empty : OrderBook P := ⟨[], [], fun _ => none⟩

def levels (b : OrderBook P) : Side → Levels P
  | .buy => b.bids
  | .sell => b.asks

def setLevels (b : OrderBook P) (s : Side) (m : Levels P) : OrderBook P :=
  match s with
  | .buy => { b with bids := m }
  | .sell => { b with asks := m }

@[simp] theorem setLevels_levels (b : OrderBook P) (s : Side) (m : Levels P) :
    (b.setLevels s m).levels s = m := by
  cases s <;> rfl

theorem setLevels_levels_ne (b : OrderBook P) {s t : Side} (h : t ≠ s) (m : Levels P) :
    (b.setLevels s m).levels t = b.levels t := by
  cases s <;> cases t <;> first | rfl | exact absurd rfl h

@[simp] theorem setLevels_opposite_levels (b : OrderBook P) (s : Side) (m : Levels P) :
    (b.setLevels s m).levels s.opposite = b.levels s.opposite :=
  setLevels_levels_ne b s.opposite_ne m

/-- `cancel_index_.erase(order_id)`. -/
def removeFromIndex (b : OrderBook P) (id : UInt64) : OrderBook P :=
  { b with cancelIndex := Function.update b.cancelIndex id none }

def bestBid (b : OrderBook P) : Option P := b.bids.head?.map Prod.fst

def bestAsk (b : OrderBook P) : Option P := b.asks.head?.map Prod.fst

/-- The scan of one deque: the first order with this id is erased, and the
level with it when the deque becomes empty. -/
def eraseFrom (id : UInt64) (dq : List (Order P)) : Option (List (Order P)) :=
  if dq.any (·.orderId == id) then
    let rest := dq.eraseP (·.orderId == id)
    if rest.isEmpty then none else some rest
  else some dq

theorem eraseFrom_eq {id : UInt64} {dq : List (Order P)} (hne : dq ≠ []) :
    eraseFrom id dq =
      if (dq.eraseP (·.orderId == id)).isEmpty then none else some (dq.eraseP (·.orderId == id)) := by
  unfold eraseFrom
  split
  · rfl
  · rename_i hany
    have hkeep : dq.eraseP (·.orderId == id) = dq :=
      List.eraseP_of_forall_not fun o ho hid => hany (List.any_eq_true.mpr ⟨o, ho, hid⟩)
    rw [hkeep, if_neg (by simpa using hne)]

theorem eraseFrom_some {id : UInt64} {dq dq' : List (Order P)} (hne : dq ≠ [])
    (h : eraseFrom id dq = some dq') :
    dq' = dq.eraseP (·.orderId == id) ∧ dq' ≠ [] := by
  rw [eraseFrom_eq hne] at h
  split at h
  · cases h
  · rename_i hemp
    obtain rfl := Option.some.inj h
    exact ⟨rfl, by simpa using hemp⟩

theorem eraseFrom_getD (id : UInt64) (dq : List (Order P)) :
    (eraseFrom id dq).getD [] = dq.eraseP (·.orderId == id) := by
  cases dq with
  | nil => rfl
  | cons o dq =>
    rw [eraseFrom_eq (List.cons_ne_nil o dq)]
    split
    · rename_i hemp
      exact (List.isEmpty_iff.mp hemp).symm
    · rfl

variable [LT P] [DecidableLT P]

/-- `map[o.price].push_back(o)`. -/
def pushBack (s : Side) (o : Order P) (m : Levels P) : Levels P :=
  alter (better s) o.price (fun dq => some (dq.getD [] ++ [o])) m

def eraseOrder (s : Side) (price : P) (id : UInt64) (m : Levels P) : Levels P :=
  alter (better s) price (fun dq => dq.bind (eraseFrom id)) m

theorem pushBack_keys {s : Side} {o : Order P} {m : Levels P} {l : P × List (Order P)}
    (h : l ∈ pushBack s o m) : l.1 = o.price ∨ ∃ dq, (l.1, dq) ∈ m := by
  rcases mem_alter_cases h with hm | ⟨hkey, -⟩ | ⟨dq, hm, -⟩
  · exact Or.inr ⟨l.2, hm⟩
  · exact Or.inl hkey
  · exact Or.inr ⟨dq, hm⟩

theorem eraseOrder_keys {s : Side} {p : P} {id : UInt64} {m : Levels P} {l : P × List (Order P)}
    (h : l ∈ eraseOrder s p id m) : ∃ dq, (l.1, dq) ∈ m := by
  rcases mem_alter_cases h with hm | ⟨-, hnone⟩ | ⟨dq, hm, -⟩
  · exact ⟨l.2, hm⟩
  · cases hnone
  · exact ⟨dq, hm⟩

def addRestingOrder (b : OrderBook P) (o : Order P) : OrderBook P :=
  let b' := match o.side with
    | .buy => { b with bids := pushBack .buy o b.bids }
    | .sell => { b with asks := pushBack .sell o b.asks }
  { b' with cancelIndex := Function.update b'.cancelIndex o.orderId (some ⟨o.side, o.price⟩) }

/-- The index entry decides alone: `true` is returned whether or not the
level it names still holds an order with this id. -/
def cancelOrder (b : OrderBook P) (id : UInt64) : OrderBook P × Bool :=
  match b.cancelIndex id with
  | none => (b, false)
  | some info =>
    let b' := match info.side with
      | .buy => { b with bids := eraseOrder .buy info.price id b.bids }
      | .sell => { b with asks := eraseOrder .sell info.price id b.asks }
    (b'.removeFromIndex id, true)

theorem addRestingOrder_eq (b : OrderBook P) (o : Order P) :
    b.addRestingOrder o =
      { b.setLevels o.side (pushBack o.side o (b.levels o.side)) with
        cancelIndex := Function.update b.cancelIndex o.orderId (some ⟨o.side, o.price⟩) } := by
  unfold addRestingOrder
  cases h : o.side <;> rfl

theorem addRestingOrder_levels (b : OrderBook P) (o : Order P) :
    (b.addRestingOrder o).levels o.side = pushBack o.side o (b.levels o.side) := by
  rw [addRestingOrder_eq]
  cases o.side <;> rfl

theorem addRestingOrder_levels_opposite (b : OrderBook P) (o : Order P) :
    (b.addRestingOrder o).levels o.side.opposite = b.levels o.side.opposite := by
  rw [addRestingOrder_eq]
  cases o.side <;> rfl

theorem cancelOrder_none {b : OrderBook P} {id : UInt64} (h : b.cancelIndex id = none) :
    b.cancelOrder id = (b, false) := by
  simp [cancelOrder, h]

theorem cancelOrder_some {b : OrderBook P} {id : UInt64} {info : CancelInfo P}
    (h : b.cancelIndex id = some info) :
    b.cancelOrder id =
      ((b.setLevels info.side (eraseOrder info.side info.price id (b.levels info.side))).removeFromIndex
        id, true) := by
  obtain ⟨s, p⟩ := info
  cases s <;> simp [cancelOrder, h, setLevels, levels]

end OrderBook

end TradingSystem
