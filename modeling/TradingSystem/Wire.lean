import TradingSystem.Order

/-!
# The wire format

`struct WireOrder` of `include/tcp_feed_handler.hpp` as `memcpy` reads it from
48 bytes on x86-64: little-endian integers, natural alignment, 6 bytes of
padding before the price. The price is kept as its bit pattern and turned
into a price by a parameter.
-/

namespace TradingSystem

/-- `sizeof(WireOrder)`. -/
def kWireOrderSize : Nat := 48

structure WireOrder where
  orderId : UInt64
  clientId : UInt64
  side : UInt8
  type : UInt8
  symbol : Symbol
  price : UInt64
  quantity : UInt64
  deriving DecidableEq

/-- Bytes as a little-endian number. -/
def littleEndian (bytes : List UInt8) : UInt64 :=
  bytes.foldr (fun b rest => b.toUInt64 + 256 * rest) 0

/-- `std::memcpy(&w, buf.data(), sizeof(WireOrder))`. -/
def WireOrder.ofBytes (bytes : List UInt8) : WireOrder where
  orderId := littleEndian (bytes.take 8)
  clientId := littleEndian ((bytes.drop 8).take 8)
  side := bytes.getD 16 0
  type := bytes.getD 17 0
  symbol := Vector.ofFn fun i => bytes.getD (18 + i) 0
  price := littleEndian ((bytes.drop 32).take 8)
  quantity := littleEndian ((bytes.drop 40).take 8)

def wireToOrder {P : Type} (price : UInt64 → P) (w : WireOrder) : Order P where
  orderId := w.orderId
  clientId := w.clientId
  side := if w.side = 0 then .buy else .sell
  type := if w.type = 0 then .limit else .market
  symbol := w.symbol
  price := price w.price
  quantity := w.quantity
  remainingQuantity := w.quantity
  timestamp := 0

end TradingSystem
