import TradingSystem.Lib.StructPack
import TradingSystem.Sharding
import TradingSystem.Wire

/-!
# From the Python client to the engine

`client/order_generator.py` packs an order with `struct.pack`, the feed
handler copies the bytes over a `WireOrder`. Between the two stand a byte
order, two sets of offsets, a cut and padded symbol and six bytes of
alignment that only one side spells out.
-/

namespace TradingSystem

open StructPack

/-! ## The client -/

/-- `"<QQ BB 8s 6x d Q"`. -/
def wireOrderFmt : List Item :=
  [.uint 8, .uint 8, .uint 1, .uint 1, .bytes 8, .pad 6, .double, .uint 8]

def wireOrderSize : ℕ := calcsize wireOrderFmt

/-- The assertion under the format. -/
theorem wireOrderSize_eq : wireOrderSize = kWireOrderSize := rfl

/-- `symbol.encode("ascii")`, `none` where it raises. -/
def encodeAscii (symbol : List Char) : Option (List UInt8) :=
  symbol.mapM fun c => if c.toNat < 128 then some (UInt8.ofNat c.toNat) else none

/-- The price is the bit pattern of the float. `none` where an exception is
raised. -/
def makeWireOrder (orderId clientId side otype : ℤ) (price : UInt64) (quantity : ℤ)
    (symbol : List Char) : Option (List UInt8) :=
  (encodeAscii symbol).bind fun ascii =>
    let sym := (ascii.take 8).rightpad 8 0
    pack wireOrderFmt [.int orderId, .int clientId, .int side, .int otype, .bytes sym,
      .float price, .int quantity]

/-! ## Numbers on the wire -/

theorem littleEndian_toNat (bytes : List UInt8) :
    (littleEndian bytes).toNat = decode bytes % 2 ^ 64 := by
  induction bytes with
  | nil => rfl
  | cons b bytes ih =>
    have hcons : littleEndian (b :: bytes) = b.toUInt64 + 256 * littleEndian bytes := rfl
    have hbase : (256 : UInt64).toNat = 256 := rfl
    rw [hcons, UInt64.toNat_add, UInt64.toNat_mul, ih, hbase, UInt8.toNat_toUInt64, decode_cons]
    omega

theorem littleEndian_encode (x : UInt64) : littleEndian (encode 8 x.toNat) = x := by
  have hx : x.toNat < 2 ^ 64 := x.toNat_lt
  apply UInt64.toNat_inj.mp
  rw [littleEndian_toNat, decode_encode]
  omega

theorem littleEndian_inj {a b : List UInt8} (ha : a.length = 8) (hb : b.length = 8) :
    littleEndian a = littleEndian b ↔ a = b := by
  have hadecode := decode_lt a
  have hbdecode := decode_lt b
  rw [ha] at hadecode
  rw [hb] at hbdecode
  rw [← UInt64.toNat_inj, littleEndian_toNat, littleEndian_toNat, ← decode_inj (ha.trans hb.symm)]
  omega

/-! ## Symbols on the wire -/

/-- The bytes of an ASCII string. -/
def asciiBytes (symbol : List Char) : List UInt8 := symbol.map fun c => UInt8.ofNat c.toNat

def IsAscii (symbol : List Char) : Prop := ∀ c ∈ symbol, c.toNat < 128

instance : DecidablePred IsAscii := fun symbol => List.decidableBAll _ symbol

theorem encodeAscii_eq {symbol : List Char} (h : IsAscii symbol) :
    encodeAscii symbol = some (asciiBytes symbol) := by
  induction symbol with
  | nil => rfl
  | cons c symbol ih =>
    have hc : c.toNat < 128 := h c List.mem_cons_self
    have htail := ih fun d hd => h d (List.mem_cons_of_mem c hd)
    unfold encodeAscii at htail ⊢
    rw [List.mapM_cons, htail, if_pos hc]
    rfl

theorem setSymbol_toList_getElem? (s : List UInt8) {i : ℕ} (hi : i < 8) :
    (setSymbol s).toList[i]? = some (s.getD i 0) := by
  simp [setSymbol, kSymbolLen, hi]

/-- The field of the record is the symbol as the engine stores it. -/
theorem fit_eq_setSymbol (s : List UInt8) : fit 8 s = (setSymbol s).toList := by
  apply List.ext_getElem?
  intro i
  by_cases hi : i < 8
  · rw [fit_getElem? hi, setSymbol_toList_getElem? s hi]
  · rw [List.getElem?_eq_none (by rw [fit_length]; omega),
      List.getElem?_eq_none (by rw [Vector.length_toList, kSymbolLen]; omega)]

/-- The padding is not part of the symbol's text. -/
theorem setSymbol_str (s : List UInt8) :
    (setSymbol s).str = (s.take kSymbolLen).takeWhile (· != 0) := by
  have hpad (n : ℕ) : (List.replicate n (0 : UInt8)).takeWhile (· != 0) = [] := by
    cases n with
    | zero => rfl
    | succ n => rfl
  rw [Symbol.str, ← fit_eq_setSymbol, fit, List.rightpad, List.takeWhile_append, hpad,
    List.append_nil]
  split
  · rename_i hall
    exact ((List.takeWhile_prefix _).eq_of_length hall).symm
  · rfl

theorem asciiBytes_eq_zero {c : Char} (h : c.toNat < 128) :
    UInt8.ofNat c.toNat = 0 ↔ c = Char.ofNat 0 := by
  have hbyte : (UInt8.ofNat c.toNat).toNat = c.toNat := by
    rw [UInt8.toNat_ofNat']
    exact Nat.mod_eq_of_lt (by omega)
  rw [← UInt8.toNat_inj, hbyte, ← Char.toNat_inj]
  rfl

/-- Cutting a string at its first NUL and cutting its bytes. -/
theorem takeWhile_asciiBytes {symbol : List Char} (h : IsAscii symbol) :
    (asciiBytes symbol).takeWhile (· != 0) =
      asciiBytes (symbol.takeWhile (· != Char.ofNat 0)) := by
  induction symbol with
  | nil => rfl
  | cons c symbol ih =>
    have hc := asciiBytes_eq_zero (h c List.mem_cons_self)
    have htail := ih fun d hd => h d (List.mem_cons_of_mem c hd)
    by_cases hzero : c = Char.ofNat 0
    · simp [asciiBytes, hzero]
    · have hne : UInt8.ofNat c.toNat ≠ 0 := fun he => hzero (hc.mp he)
      unfold asciiBytes at htail ⊢
      simp [hzero, hne, htail]

/-! ## The record and the struct -/

/-- The bytes of a `WireOrder`, with zeros for the padding. -/
def WireOrder.toBytes (w : WireOrder) : List UInt8 :=
  encode 8 w.orderId.toNat ++ (encode 8 w.clientId.toNat ++ ([w.side] ++ ([w.type] ++
    (w.symbol.toList ++ (List.replicate 6 0 ++ (encode 8 w.price.toNat ++
      encode 8 w.quantity.toNat))))))

theorem WireOrder.ofBytes_toBytes (w : WireOrder) : WireOrder.ofBytes w.toBytes = w := by
  have hsymbol : Vector.ofFn (fun i : Fin kSymbolLen => w.toBytes.getD (18 + i) 0) = w.symbol := by
    apply Vector.ext
    intro i hi
    have hone : ¬ 18 + i < 8 := by omega
    have htwo : ¬ 18 + i - 8 < 8 := by omega
    have hrest : 18 + i - 8 - 8 = i + 2 := by omega
    simp [WireOrder.toBytes, List.getElem?_append, hone, htwo, hrest, hi]
  have hlen : w.symbol.toList.length = 8 := Vector.length_toList
  unfold WireOrder.ofBytes
  rw [hsymbol]
  simp [-Vector.length_toList, WireOrder.toBytes, List.drop_append, List.drop_of_length_le,
    List.take_of_length_le, hlen, littleEndian_encode]

/-- Arguments of `make_wire_order`: the integers fit their fields and the
symbol is ASCII. -/
structure WireArgs where
  orderId : UInt64
  clientId : UInt64
  side : UInt8
  otype : UInt8
  price : UInt64
  quantity : UInt64
  symbol : List Char
  ascii : IsAscii symbol

namespace WireArgs

/-- The bytes the client sends. -/
def send (args : WireArgs) : Option (List UInt8) :=
  makeWireOrder args.orderId.toNat args.clientId.toNat args.side.toNat args.otype.toNat args.price
    args.quantity.toNat args.symbol

/-- The symbol as an order in the engine's process has it. -/
def stored (args : WireArgs) : Symbol := setSymbol (asciiBytes args.symbol)

def struct (args : WireArgs) : WireOrder where
  orderId := args.orderId
  clientId := args.clientId
  side := args.side
  type := args.otype
  symbol := args.stored
  price := args.price
  quantity := args.quantity

/-- The client's record is the engine's struct. -/
theorem send_eq (args : WireArgs) : args.send = some args.struct.toBytes := by
  have hsym : fit 8 (((asciiBytes args.symbol).take 8).rightpad 8 0) = args.stored.toList := by
    rw [stored, ← fit_eq_setSymbol]
    exact fit_of_length (fit_length 8 _)
  have hbyte (b : UInt8) : encode 1 b.toNat = [b] := by
    rw [encode, encode, UInt8.ofNat_toNat]
  rw [send, makeWireOrder, encodeAscii_eq args.ascii, Option.bind_some, wireOrderFmt,
    pack_uint args.orderId.toNat_lt, pack_uint args.clientId.toNat_lt,
    pack_uint args.side.toNat_lt, pack_uint args.otype.toNat_lt, pack_bytes, pack_pad,
    pack_double, pack_uint args.quantity.toNat_lt, hsym, hbyte, hbyte]
  simp [pack, WireOrder.toBytes, struct]

theorem send_length {args : WireArgs} {bytes : List UInt8} (h : args.send = some bytes) :
    bytes.length = kWireOrderSize := by
  rw [send, makeWireOrder, encodeAscii_eq args.ascii, Option.bind_some] at h
  exact (pack_length h).trans wireOrderSize_eq

end WireArgs

/-! ## Blocks that decode to the same order -/

def Side.toByte : Side → UInt8
  | .buy => 0
  | .sell => 1

def OrderType.toByte : OrderType → UInt8
  | .limit => 0
  | .market => 1

/-- The struct of an order whose price is a bit pattern. -/
def WireOrder.ofOrder (o : Order UInt64) : WireOrder where
  orderId := o.orderId
  clientId := o.clientId
  side := o.side.toByte
  type := o.type.toByte
  symbol := o.symbol
  price := o.price
  quantity := o.quantity

/-- The order a block stands for, its price as a bit pattern. -/
def decodeBlock (block : List UInt8) : Order UInt64 := wireToOrder id (.ofBytes block)

theorem wireToOrder_buy {P : Type} (price : UInt64 → P) (w : WireOrder) :
    (wireToOrder price w).side = .buy ↔ w.side = 0 := by
  by_cases h : w.side = 0 <;> simp [wireToOrder, h]

theorem wireToOrder_limit {P : Type} (price : UInt64 → P) (w : WireOrder) :
    (wireToOrder price w).type = .limit ↔ w.type = 0 := by
  by_cases h : w.type = 0 <;> simp [wireToOrder, h]

/-- `wire_to_order` forgets which non-zero byte the side and the type were. -/
theorem wireToOrder_eq_iff (v w : WireOrder) :
    wireToOrder id v = wireToOrder id w ↔
      v.orderId = w.orderId ∧ v.clientId = w.clientId ∧ (v.side = 0 ↔ w.side = 0) ∧
        (v.type = 0 ↔ w.type = 0) ∧ v.symbol = w.symbol ∧ v.price = w.price ∧
          v.quantity = w.quantity := by
  have hside : (if v.side = 0 then Side.buy else Side.sell) =
      (if w.side = 0 then Side.buy else Side.sell) ↔ (v.side = 0 ↔ w.side = 0) := by
    by_cases hv : v.side = 0 <;> by_cases hw : w.side = 0 <;> simp [hv, hw]
  have htype : (if v.type = 0 then OrderType.limit else OrderType.market) =
      (if w.type = 0 then OrderType.limit else OrderType.market) ↔ (v.type = 0 ↔ w.type = 0) := by
    by_cases hv : v.type = 0 <;> by_cases hw : w.type = 0 <;> simp [hv, hw]
  simp only [wireToOrder, Order.mk.injEq, hside, htype, id, and_self, and_true]

theorem wireToOrder_ofOrder (w : WireOrder) :
    wireToOrder id (.ofOrder (wireToOrder id w)) = wireToOrder id w := by
  have hside : (wireToOrder id w).side.toByte = 0 ↔ w.side = 0 := by
    rw [← wireToOrder_buy id w]
    cases (wireToOrder id w).side <;> simp [Side.toByte]
  have htype : (wireToOrder id w).type.toByte = 0 ↔ w.type = 0 := by
    rw [← wireToOrder_limit id w]
    cases (wireToOrder id w).type <;> simp [OrderType.toByte]
  exact (wireToOrder_eq_iff _ _).mpr ⟨rfl, rfl, hside, htype, rfl, rfl, rfl⟩

/-- Two blocks agree on the bytes from `i` up to `j`. -/
def AgreeOn (i j : ℕ) (a b : List UInt8) : Prop := ∀ k, i ≤ k → k < j → a[k]? = b[k]?

theorem agreeOn_iff_take (i n : ℕ) (a b : List UInt8) :
    AgreeOn i (i + n) a b ↔ (a.drop i).take n = (b.drop i).take n := by
  constructor
  · intro h
    apply List.ext_getElem?
    intro k
    rw [List.getElem?_take, List.getElem?_take, List.getElem?_drop, List.getElem?_drop]
    split
    · exact h (i + k) (by omega) (by omega)
    · rfl
  · intro h k hi hk
    have hat := congrArg (·[k - i]?) h
    simp only [List.getElem?_take_of_lt (show k - i < n by omega), List.getElem?_drop,
      Nat.add_sub_cancel' hi] at hat
    exact hat

theorem littleEndian_eq_iff {i : ℕ} {a b : List UInt8} (ha : i + 8 ≤ a.length)
    (hb : i + 8 ≤ b.length) :
    littleEndian ((a.drop i).take 8) = littleEndian ((b.drop i).take 8) ↔
      AgreeOn i (i + 8) a b := by
  rw [agreeOn_iff_take]
  apply littleEndian_inj
  all_goals rw [List.length_take, List.length_drop]; omega

theorem getElem?_eq_iff_getD {i : ℕ} {a b : List UInt8} (ha : i < a.length) (hb : i < b.length) :
    a[i]? = b[i]? ↔ a.getD i 0 = b.getD i 0 := by
  rw [List.getD_eq_getElem?_getD, List.getD_eq_getElem?_getD, List.getElem?_eq_getElem ha,
    List.getElem?_eq_getElem hb, Option.getD_some, Option.getD_some, Option.some.injEq]

theorem ofFn_eq_iff {i n : ℕ} {a b : List UInt8} (ha : i + n ≤ a.length) (hb : i + n ≤ b.length) :
    (Vector.ofFn fun k : Fin n => a.getD (i + k) 0) = Vector.ofFn (fun k : Fin n => b.getD (i + k) 0) ↔
      AgreeOn i (i + n) a b := by
  constructor
  · intro h k hi hk
    have hlt : k - i < n := by omega
    have hat := congrArg (fun v : Vector UInt8 n => v[k - i]) h
    simp only [Vector.getElem_ofFn, Nat.add_sub_cancel' hi] at hat
    exact (getElem?_eq_iff_getD (by omega) (by omega)).mpr hat
  · intro h
    apply Vector.ext
    intro k hk
    rw [Vector.getElem_ofFn, Vector.getElem_ofFn, ← getElem?_eq_iff_getD (by omega) (by omega)]
    exact h (i + k) (by omega) (by omega)

/-- Two blocks have the same bytes outside the padding, up to which non-zero
byte the side and the type are. -/
structure SameContent (a b : List UInt8) : Prop where
  ids : AgreeOn 0 16 a b
  side : a[16]? = some 0 ↔ b[16]? = some 0
  type : a[17]? = some 0 ↔ b[17]? = some 0
  symbol : AgreeOn 18 26 a b
  price_quantity : AgreeOn 32 48 a b

theorem agreeOn_split {i j k : ℕ} (hij : i ≤ j) (hjk : j ≤ k) (a b : List UInt8) :
    AgreeOn i k a b ↔ AgreeOn i j a b ∧ AgreeOn j k a b := by
  constructor
  · intro h
    exact ⟨fun n hi hj => h n hi (by omega), fun n hj hk => h n (by omega) hk⟩
  · intro ⟨hleft, hright⟩ n hi hk
    by_cases hn : n < j
    · exact hleft n hi hn
    · exact hright n (by omega) hk

theorem getElem?_eq_zero_iff {i : ℕ} {a : List UInt8} (ha : i < a.length) :
    a[i]? = some 0 ↔ a.getD i 0 = 0 := by
  rw [List.getD_eq_getElem?_getD, List.getElem?_eq_getElem ha, Option.getD_some, Option.some.injEq]

theorem decodeBlock_eq_iff {a b : List UInt8} (ha : a.length = kWireOrderSize)
    (hb : b.length = kWireOrderSize) : decodeBlock a = decodeBlock b ↔ SameContent a b := by
  rw [kWireOrderSize] at ha hb
  have horder : (WireOrder.ofBytes a).orderId = (WireOrder.ofBytes b).orderId ↔ AgreeOn 0 8 a b :=
    littleEndian_eq_iff (i := 0) (by omega) (by omega)
  have hclient : (WireOrder.ofBytes a).clientId = (WireOrder.ofBytes b).clientId ↔
      AgreeOn 8 16 a b := littleEndian_eq_iff (by omega) (by omega)
  have hside : ((WireOrder.ofBytes a).side = 0 ↔ (WireOrder.ofBytes b).side = 0) ↔
      (a[16]? = some 0 ↔ b[16]? = some 0) := by
    rw [getElem?_eq_zero_iff (by omega), getElem?_eq_zero_iff (by omega)]
    rfl
  have htype : ((WireOrder.ofBytes a).type = 0 ↔ (WireOrder.ofBytes b).type = 0) ↔
      (a[17]? = some 0 ↔ b[17]? = some 0) := by
    rw [getElem?_eq_zero_iff (by omega), getElem?_eq_zero_iff (by omega)]
    rfl
  have hsymbol : (WireOrder.ofBytes a).symbol = (WireOrder.ofBytes b).symbol ↔
      AgreeOn 18 26 a b := ofFn_eq_iff (by rw [kSymbolLen]; omega) (by rw [kSymbolLen]; omega)
  have hprice : (WireOrder.ofBytes a).price = (WireOrder.ofBytes b).price ↔ AgreeOn 32 40 a b :=
    littleEndian_eq_iff (by omega) (by omega)
  have hquantity : (WireOrder.ofBytes a).quantity = (WireOrder.ofBytes b).quantity ↔
      AgreeOn 40 48 a b := littleEndian_eq_iff (by omega) (by omega)
  have hids := agreeOn_split (show 0 ≤ 8 by omega) (show 8 ≤ 16 by omega) a b
  have hnumbers := agreeOn_split (show 32 ≤ 40 by omega) (show 40 ≤ 48 by omega) a b
  rw [decodeBlock, decodeBlock, wireToOrder_eq_iff, horder, hclient, hside, htype, hsymbol,
    hprice, hquantity]
  constructor
  · intro ⟨ho, hc, hs, ht, hsym, hp, hq⟩
    exact ⟨hids.mpr ⟨ho, hc⟩, hs, ht, hsym, hnumbers.mpr ⟨hp, hq⟩⟩
  · intro h
    have ⟨ho, hc⟩ := hids.mp h.ids
    have ⟨hp, hq⟩ := hnumbers.mp h.price_quantity
    exact ⟨ho, hc, h.side, h.type, h.symbol, hp, hq⟩

/-! ## The round trip -/

/-- What the engine gets from the bytes of `make_wire_order`. -/
structure Delivered {P : Type} (price : UInt64 → P) (args : WireArgs) (o : Order P) : Prop where
  orderId : o.orderId = args.orderId
  clientId : o.clientId = args.clientId
  quantity : o.quantity = args.quantity
  remaining : o.remainingQuantity = args.quantity
  price : o.price = price args.price
  buy : o.side = .buy ↔ args.side = 0
  limit : o.type = .limit ↔ args.otype = 0
  symbol : o.symbol = setSymbol (asciiBytes args.symbol)
  text : o.symbolStr =
    asciiBytes ((args.symbol.take kSymbolLen).takeWhile (· != Char.ofNat 0))
  shard : ∀ (inProcess : Order P) (numShards : UInt32),
    inProcess.symbol = setSymbol (asciiBytes args.symbol) →
      shardForSymbol o.symbolStr numShards = shardForSymbol inProcess.symbolStr numShards

theorem WireArgs.delivered {P : Type} (price : UInt64 → P) (args : WireArgs) :
    Delivered price args (wireToOrder price args.struct) := by
  constructor
  case orderId | clientId | quantity | remaining | price | symbol => rfl
  case buy => exact wireToOrder_buy price args.struct
  case limit => exact wireToOrder_limit price args.struct
  case text =>
    have hcut : IsAscii (args.symbol.take kSymbolLen) :=
      fun c hc => args.ascii c (List.mem_of_mem_take hc)
    rw [← takeWhile_asciiBytes hcut, asciiBytes, List.map_take]
    exact setSymbol_str (asciiBytes args.symbol)
  case shard =>
    intro inProcess numShards hin
    have hsame : (wireToOrder price args.struct).symbolStr = inProcess.symbolStr :=
      congrArg Symbol.str hin.symm
    rw [hsame]

/-- **The wire format round trip.** Whatever the client is asked to send, if
the integers fit their fields and the symbol is ASCII, its 48 bytes carry the
order to the engine, which routes it as one of its own process. Every block
decodes to an order that encodes to a block for the same order, and two blocks
stand for the same order if and only if they differ at most in the padding and
in which non-zero byte the side and the type are. -/
theorem wire_round_trip :
    (∀ {P : Type} (price : UInt64 → P) (args : WireArgs),
      ∃ bytes, args.send = some bytes ∧ bytes.length = kWireOrderSize ∧
        Delivered price args (wireToOrder price (.ofBytes bytes))) ∧
    (∀ block : List UInt8,
      decodeBlock (WireOrder.ofOrder (decodeBlock block)).toBytes = decodeBlock block) ∧
    ∀ a b : List UInt8, a.length = kWireOrderSize → b.length = kWireOrderSize →
      (decodeBlock a = decodeBlock b ↔ SameContent a b) := by
  refine ⟨?_, ?_, fun a b => decodeBlock_eq_iff⟩
  · intro P price args
    refine ⟨args.struct.toBytes, args.send_eq, WireArgs.send_length args.send_eq, ?_⟩
    rw [WireOrder.ofBytes_toBytes]
    exact args.delivered price
  · intro block
    rw [decodeBlock, WireOrder.ofBytes_toBytes]
    exact wireToOrder_ofOrder _

/-- A market sell of a symbol that is too long by one. -/
def reliance : WireArgs where
  orderId := 7
  clientId := 3
  side := 1
  otype := 1
  price := 0x4059000000000000
  quantity := 50
  symbol := ['R', 'E', 'L', 'I', 'A', 'N', 'C', 'E', '2']
  ascii := by decide +kernel

/-- The bytes of `reliance` with another padding and another non-zero side. -/
def relianceBlock : List UInt8 :=
  [7, 0, 0, 0, 0, 0, 0, 0, 3, 0, 0, 0, 0, 0, 0, 0, 9, 1, 82, 69, 76, 73, 65, 78, 67, 69,
    1, 2, 3, 4, 5, 6, 0, 0, 0, 0, 0, 0, 89, 64, 50, 0, 0, 0, 0, 0, 0, 0]

theorem wire_round_trip_reliance :
    ∃ bytes, reliance.send = some bytes ∧ Delivered id reliance (decodeBlock bytes) ∧
      bytes ≠ relianceBlock ∧ SameContent bytes relianceBlock := by
  obtain ⟨bytes, hsend, hlen, hdelivered⟩ := wire_round_trip.1 id reliance
  have hblock : decodeBlock bytes = decodeBlock relianceBlock ∧ bytes ≠ relianceBlock := by
    obtain rfl : _ = bytes := Option.some.inj (reliance.send_eq.symm.trans hsend)
    decide +kernel
  exact ⟨bytes, hsend, hdelivered, hblock.2,
    (wire_round_trip.2.2 bytes relianceBlock hlen rfl).mp hblock.1⟩

end TradingSystem
