import Mathlib.Order.Defs.LinearOrder

/-!
# Orders and trades

The plain data of `include/order.hpp`. Prices are a type parameter `P`: the
source's `double` enters through its comparison `<` and, in the collar, its
arithmetic. `std::string` and `char[]` are lists and vectors of bytes.
-/

namespace TradingSystem

inductive Side where
  | buy
  | sell
  deriving DecidableEq, Repr

def Side.opposite : Side → Side
  | .buy => .sell
  | .sell => .buy

@[simp] theorem Side.opposite_opposite (s : Side) : s.opposite.opposite = s := by
  cases s <;> rfl

theorem Side.opposite_ne (s : Side) : s.opposite ≠ s := by
  cases s <;> decide

@[simp] theorem Side.beq_opposite (s : Side) : (s == s.opposite) = false := by
  cases s <;> rfl

theorem Side.eq_or_eq_opposite (s t : Side) : t = s ∨ t = s.opposite := by
  cases s <;> cases t <;> simp [Side.opposite]

inductive OrderType where
  | limit
  | market
  deriving DecidableEq, Repr

/-- Length of the fixed symbol field, NUL-padded. -/
def kSymbolLen : Nat := 8

abbrev Symbol := Vector UInt8 kSymbolLen

structure Order (P : Type) where
  orderId : UInt64
  clientId : UInt64
  side : Side
  type : OrderType
  symbol : Symbol
  /-- Ignored for `market` orders. -/
  price : P
  quantity : UInt64
  remainingQuantity : UInt64
  /-- A sequence number, not wall-clock time. -/
  timestamp : UInt64
  deriving DecidableEq, Repr

structure Trade (P : Type) where
  buyOrderId : UInt64
  sellOrderId : UInt64
  /-- Always the resting order's price. -/
  price : P
  quantity : UInt64
  timestamp : UInt64
  deriving DecidableEq, Repr

/-- An order as a client builds it: nothing filled, no timestamp yet. -/
def Order.make {P : Type} (id : UInt64) (side : Side) (type : OrderType) (price : P)
    (quantity : UInt64) : Order P where
  orderId := id
  clientId := 0
  side := side
  type := type
  symbol := Vector.replicate kSymbolLen 0
  price := price
  quantity := quantity
  remainingQuantity := 0
  timestamp := 0

/-- `memset` to zero, then copy at most `kSymbolLen` bytes. -/
def setSymbol (s : List UInt8) : Symbol :=
  Vector.ofFn fun i => (s.take kSymbolLen).getD i 0

/-- The bytes up to the first NUL, or all of them (`strnlen`). -/
def Symbol.str (s : Symbol) : List UInt8 := s.toList.takeWhile (· != 0)

def Order.symbolStr {P : Type} (o : Order P) : List UInt8 := o.symbol.str

end TradingSystem
