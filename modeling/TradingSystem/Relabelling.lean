import Mathlib.Logic.Equiv.Defs
import TradingSystem.Cancellation
import TradingSystem.CollarBand

/-!
# What the engine does not depend on

A relabelling renames order ids, changes the fields the engine never reads,
maps prices, and may exchange the two sides. If it respects the comparison of
prices and the collar, the engine does on relabelled calls what it does on
the original ones, relabelled: the equation holds of one round of the
matching loop, so of a submission, so of every run from every state.

Three relabellings are worth a name. Exchanging the sides and negating the
prices shows that the branches the source writes out for bids and for asks
are mirror images of each other. Multiplying all prices by a positive number
is a change of currency or of tick. Dropping the unread fields shows which
data of an order can have no effect at all.
-/

namespace TradingSystem

open OrderedMap

/-- The other side if the sides are exchanged. -/
def Side.turn (s : Side) (mirrored : Bool) : Side :=
  if mirrored then s.opposite else s

@[simp] theorem Side.turn_turn (s : Side) (m : Bool) : (s.turn m).turn m = s := by
  cases s <;> cases m <;> rfl

theorem Side.turn_opposite (s : Side) (m : Bool) : s.opposite.turn m = (s.turn m).opposite := by
  cases s <;> cases m <;> rfl

/-- The collar's reasons as seen with the sides exchanged. -/
def RejectReason.turn (mirrored : Bool) : RejectReason → RejectReason
  | .none => .none
  | .priceTooHigh => if mirrored then .priceTooLow else .priceTooHigh
  | .priceTooLow => if mirrored then .priceTooHigh else .priceTooLow

def CollarResult.turn (mirrored : Bool) (r : CollarResult) : CollarResult :=
  ⟨r.accepted, r.reason.turn mirrored⟩

structure Relabelling (P Q : Type) [LT P] [DecidableLT P] [PriceArith P] [LT Q] [DecidableLT Q]
    [PriceArith Q] where
  ids : Equiv.Perm UInt64
  client : UInt64 → UInt64
  symbol : Symbol → Symbol
  price : P → Q
  band : P → Q
  mirrored : Bool
  better_iff : ∀ s p q, better (s.turn mirrored) (price p) (price q) ↔ better s p q

namespace Relabelling

variable {P Q : Type} [LT P] [DecidableLT P] [PriceArith P] [LT Q] [DecidableLT Q] [PriceArith Q]
  (f : Relabelling P Q)

def side (s : Side) : Side := s.turn f.mirrored

def order (o : Order P) : Order Q where
  orderId := f.ids o.orderId
  clientId := f.client o.clientId
  side := f.side o.side
  type := o.type
  symbol := f.symbol o.symbol
  price := f.price o.price
  quantity := o.quantity
  remainingQuantity := o.remainingQuantity
  timestamp := o.timestamp

def trade (t : Trade P) : Trade Q where
  buyOrderId := f.ids (t.orderId (f.side .buy))
  sellOrderId := f.ids (t.orderId (f.side .sell))
  price := f.price t.price
  quantity := t.quantity
  timestamp := t.timestamp

def levels (m : Levels P) : Levels Q := m.map (Prod.map f.price (List.map f.order))

def info (i : CancelInfo P) : CancelInfo Q := ⟨f.side i.side, f.price i.price⟩

def index (i : UInt64 → Option (CancelInfo P)) : UInt64 → Option (CancelInfo Q) :=
  fun id => (i (f.ids.symm id)).map f.info

def book (b : OrderBook P) : OrderBook Q where
  bids := f.levels (b.levels (f.side .buy))
  asks := f.levels (b.levels (f.side .sell))
  cancelIndex := f.index b.cancelIndex

def engine (e : MatchingEngine P) : MatchingEngine Q where
  book := f.book e.book
  collar := ⟨f.band e.collar.bandFraction⟩
  lastPrice := e.lastPrice.map f.price
  nextTimestamp := e.nextTimestamp

def state (s : MatchState P) : MatchState Q where
  incoming := f.order s.incoming
  opposite := f.levels s.opposite
  trades := s.trades.map f.trade
  cancelIndex := f.index s.cancelIndex
  lastPrice := s.lastPrice.map f.price
  nextTimestamp := s.nextTimestamp

def call : Call P → Call Q
  | .submit o => .submit (f.order o)
  | .cancel id => .cancel (f.ids id)

/-- Around the reference `r` the relabelled collar judges as the original does. -/
def Keeps (b r : P) : Prop :=
  ∀ p, PriceCollar.check ⟨f.band b⟩ (f.price p) (some (f.price r)) =
    (PriceCollar.check ⟨b⟩ p (some r)).turn f.mirrored

/-- The collar of `e` is kept around its last price. -/
def Fits (e : MatchingEngine P) : Prop :=
  ∀ r, e.lastPrice = some r → f.Keeps e.collar.bandFraction r

def result : SubmitResult P → SubmitResult Q
  | .trades ts => .trades (ts.map f.trade)
  | .rejection r => .rejection ⟨f.ids r.orderId, r.reason.turn f.mirrored⟩

def reply : Reply P → Reply Q
  | .submitted r => .submitted (f.result r)
  | .cancelled found => .cancelled found

/-! ## The data -/

theorem side_opposite (s : Side) : f.side s.opposite = (f.side s).opposite :=
  s.turn_opposite f.mirrored

theorem side_side (s : Side) : f.side (f.side s) = s := s.turn_turn f.mirrored

theorem better_side (s : Side) (p q : P) :
    better (f.side s) (f.price p) (f.price q) ↔ better s p q :=
  f.better_iff s p q

theorem book_levels (b : OrderBook P) (s : Side) :
    (f.book b).levels (f.side s) = f.levels (b.levels s) := by
  have hsides : ∀ t, (f.book b).levels t = f.levels (b.levels (f.side t)) := by
    intro t
    cases t <;> rfl
  rw [hsides, side_side]

theorem book_setLevels (b : OrderBook P) (s : Side) (m : Levels P) :
    f.book (b.setLevels s m) = (f.book b).setLevels (f.side s) (f.levels m) := by
  cases hm : f.mirrored <;> cases s <;>
    simp [book, side, hm, Side.turn, OrderBook.setLevels, OrderBook.levels, Side.opposite]

theorem book_index (b : OrderBook P) (i : UInt64 → Option (CancelInfo P)) :
    f.book { b with cancelIndex := i } = { f.book b with cancelIndex := f.index i } := rfl

theorem index_update (i : UInt64 → Option (CancelInfo P)) (id : UInt64)
    (v : Option (CancelInfo P)) :
    f.index (Function.update i id v) = Function.update (f.index i) (f.ids id) (v.map f.info) := by
  funext x
  by_cases hx : x = f.ids id
  · subst hx
    simp [index]
  · have hne : f.ids.symm x ≠ id := fun h => hx (by rw [← h, Equiv.apply_symm_apply])
    simp [index, Function.update_of_ne hx, Function.update_of_ne hne]

theorem book_removeFromIndex (b : OrderBook P) (id : UInt64) :
    f.book (b.removeFromIndex id) = (f.book b).removeFromIndex (f.ids id) := by
  rw [OrderBook.removeFromIndex, book_index, index_update]
  rfl

theorem orders_levels (m : Levels P) : (f.levels m).orders = m.orders.map f.order := by
  induction m with
  | nil => rfl
  | cons e m ih =>
    obtain ⟨p, dq⟩ := e
    simp [levels, Levels.orders_cons] at ih ⊢
    exact ih

/-! ## The book -/

theorem pushBack_levels (s : Side) (o : Order P) (m : Levels P) :
    f.levels (OrderBook.pushBack s o m) =
      OrderBook.pushBack (f.side s) (f.order o) (f.levels m) := by
  refine map_alter (f.better_side s) o.price (fun dq => ?_) m
  cases dq <;> simp

theorem eraseFrom_map (id : UInt64) (dq : List (Order P)) :
    OrderBook.eraseFrom (f.ids id) (dq.map f.order) =
      (OrderBook.eraseFrom id dq).map (List.map f.order) := by
  have hid : ((fun o : Order Q => o.orderId == f.ids id) ∘ f.order) = fun o => o.orderId == id := by
    funext o
    simp [order]
  unfold OrderBook.eraseFrom
  rw [List.any_map, List.eraseP_map, hid]
  split
  · simp only [List.isEmpty_map]
    split <;> rfl
  · rfl

theorem eraseOrder_levels (s : Side) (p : P) (id : UInt64) (m : Levels P) :
    f.levels (OrderBook.eraseOrder s p id m) =
      OrderBook.eraseOrder (f.side s) (f.price p) (f.ids id) (f.levels m) := by
  refine map_alter (f.better_side s) p (fun dq => ?_) m
  cases dq with
  | none => rfl
  | some dq => exact f.eraseFrom_map id dq

theorem addRestingOrder_book (b : OrderBook P) (o : Order P) :
    f.book (b.addRestingOrder o) = (f.book b).addRestingOrder (f.order o) := by
  have hside : (f.order o).side = f.side o.side := rfl
  rw [OrderBook.addRestingOrder_eq, OrderBook.addRestingOrder_eq, book_index, book_setLevels,
    pushBack_levels, index_update, hside, book_levels]
  rfl

theorem cancelOrder_book (b : OrderBook P) (id : UInt64) :
    (f.book b).cancelOrder (f.ids id) =
      (f.book (b.cancelOrder id).1, (b.cancelOrder id).2) := by
  have hentry : (f.book b).cancelIndex (f.ids id) = (b.cancelIndex id).map f.info := by
    simp [book, index]
  cases hi : b.cancelIndex id with
  | none =>
    rw [hi] at hentry
    rw [OrderBook.cancelOrder_none hi, OrderBook.cancelOrder_none hentry]
  | some i =>
    have hside : (f.info i).side = f.side i.side := rfl
    rw [hi] at hentry
    rw [OrderBook.cancelOrder_some hi, OrderBook.cancelOrder_some hentry, hside, book_levels,
      book_removeFromIndex, book_setLevels, eraseOrder_levels]
    rfl

/-! ## One submission -/

theorem makeTrade_order (incoming front : Order P) (timestamp : UInt64) :
    makeTrade (f.order incoming) (f.order front) timestamp =
      f.trade (makeTrade incoming front timestamp) := by
  cases hs : incoming.side <;> cases hm : f.mirrored <;>
    simp [makeTrade, trade, order, side, Side.turn, Side.opposite, Trade.orderId, fillQuantity, hs, hm]

theorem stopsAt_order (o : Order P) (p : P) : (f.order o).stopsAt (f.price p) = o.stopsAt p := by
  rw [Bool.eq_iff_iff, Order.stopsAt_iff, Order.stopsAt_iff]
  change _ ∧ better (f.side o.side).opposite (f.price o.price) (f.price p) ↔ _
  rw [← side_opposite, better_side]
  rfl

/-- One round of the loop. -/
theorem fill_state (s : MatchState P) (p : P) (front : Order P) (queue : List (Order P))
    (rest : Levels P) :
    (f.state s).fill (f.price p) (f.order front) (queue.map f.order) (f.levels rest) =
      f.state (s.fill p front queue rest) := by
  have hleft : ((f.order front).take (fillQuantity (f.order s.incoming) (f.order front))) =
      f.order (front.take (fillQuantity s.incoming front)) := rfl
  have htrade := f.makeTrade_order s.incoming front s.nextTimestamp
  have hrem : (f.order (front.take (fillQuantity s.incoming front))).remainingQuantity =
    (front.take (fillQuantity s.incoming front)).remainingQuantity := rfl
  simp only [MatchState.fill, state, hleft, htrade, hrem]
  split
  · rw [index_update]
    cases queue <;> simp [levels, order, Order.take, fillQuantity]
  · simp [levels, order, Order.take, fillQuantity]

theorem matchStep_state (s : MatchState P) :
    matchStep (f.state s) = (matchStep s).map f.state := by
  have hpos : (f.state s).incoming.remainingQuantity = s.incoming.remainingQuantity := rfl
  have hopp : (f.state s).opposite = f.levels s.opposite := rfl
  unfold matchStep
  rw [hpos, hopp]
  split
  · cases hm : s.opposite with
    | nil => rfl
    | cons l rest =>
      obtain ⟨p, dq⟩ := l
      have hstop : (f.state s).incoming.stopsAt (f.price p) = s.incoming.stopsAt p :=
        f.stopsAt_order _ _
      simp only [levels, List.map_cons, Prod.map_apply, hstop]
      split
      · rfl
      · cases dq with
        | nil => rfl
        | cons front queue => exact congrArg some (f.fill_state s p front queue rest)
  · rfl

theorem matchAgainst_state (s : MatchState P) :
    matchAgainst (f.state s) = f.state (matchAgainst s) := by
  have hlength : (f.state s).opposite.orders.length = s.opposite.orders.length := by
    rw [state, orders_levels, List.length_map]
  have hrounds : (f.state s).rounds = s.rounds := by
    rw [MatchState.rounds, hlength]
    rfl
  rw [matchAgainst, hrounds]
  exact Loop.run_map f.matchStep_state _ s

open MatchingEngine

theorem stamp_order (e : MatchingEngine P) (o : Order P) :
    (f.engine e).stamp (f.order o) = f.order (e.stamp o) := rfl

theorem enter_state (e : MatchingEngine P) (o : Order P) :
    (f.engine e).enter (f.order o) = f.state (e.enter o) := by
  have hopp : (f.book e.book).levels (f.side o.side).opposite =
      f.levels (e.book.levels o.side.opposite) := by
    rw [← side_opposite, book_levels]
  simp only [enter, state, engine, order, hopp, List.map_nil]
  rfl

theorem matched_order (e : MatchingEngine P) (o : Order P) :
    (f.engine e).matched (f.order o) = f.state (e.matched o) := by
  have htick : (f.engine e).tick = f.engine e.tick := rfl
  rw [matched, stamp_order, htick, enter_state, matchAgainst_state]
  rfl

theorem leave_engine (e : MatchingEngine P) (s : MatchState P) :
    (f.engine e).leave (f.state s) = f.engine (e.leave s) := by
  have hside : (f.state s).incoming.side.opposite = f.side s.incoming.side.opposite := by
    rw [side_opposite]
    rfl
  unfold leave
  rw [hside]
  simp only [engine, book_index, book_setLevels]
  rfl

theorem rest_engine (e : MatchingEngine P) (o : Order P) :
    (f.engine e).rest (f.order o) = f.engine (e.rest o) := by
  have hleft : (f.order o).remainingQuantity = o.remainingQuantity := rfl
  have htype : (f.order o).type = o.type := rfl
  unfold rest
  rw [hleft, htype]
  split
  · simp only [engine, addRestingOrder_book]
  · rfl

theorem collarCheck_order {e : MatchingEngine P} (h : f.Fits e) (o : Order P) :
    (f.engine e).collarCheck (f.order o) = (e.collarCheck o).turn f.mirrored := by
  have htype : (f.order o).type = o.type := rfl
  unfold collarCheck
  rw [htype]
  cases o.type with
  | market => rfl
  | limit =>
    cases hl : e.lastPrice with
    | none =>
      simp only [engine, hl]
      rfl
    | some r =>
      simp only [engine, hl]
      exact h r hl o.price

theorem submitOrder_order {e : MatchingEngine P} (h : f.Fits e) (o : Order P) :
    (f.engine e).submitOrder (f.order o) =
      (f.engine (e.submitOrder o).1, f.result (e.submitOrder o).2) := by
  have hcheck := f.collarCheck_order h o
  have haccepted : ((f.engine e).collarCheck (f.order o)).accepted =
      (e.collarCheck o).accepted := by
    rw [hcheck]
    rfl
  cases ha : (e.collarCheck o).accepted with
  | false =>
    rw [ha] at haccepted
    rw [submitOrder_rejected ha, submitOrder_rejected haccepted, hcheck]
    rfl
  | true =>
    rw [ha] at haccepted
    have htick : (f.engine e).tick = f.engine e.tick := rfl
    rw [submitOrder_accepted ha, submitOrder_accepted haccepted, matched_order, htick,
      leave_engine]
    exact Prod.ext (f.rest_engine _ _) rfl

/-! ## Whole runs -/

theorem engine_new {band : P} {band' : Q}
    (h : f.band (band / PriceArith.lit 100) = band' / PriceArith.lit 100) :
    f.engine (new band) = new band' := by
  have hlevels : ∀ s, f.levels ((OrderBook.empty : OrderBook P).levels s) = [] := by
    intro s
    cases s <;> rfl
  have hbook : f.book (OrderBook.empty : OrderBook P) = OrderBook.empty := by
    rw [book, hlevels, hlevels]
    rfl
  simp only [engine, new, PriceCollar.new, hbook, h]
  rfl

theorem call_call {e : MatchingEngine P} (h : f.Fits e) (c : Call P) :
    (f.engine e).call (f.call c) = (f.engine (e.call c).1, f.reply (e.call c).2) := by
  cases c with
  | submit o =>
    simp only [call, MatchingEngine.call, f.submitOrder_order h]
    rfl
  | cancel id =>
    simp only [call, MatchingEngine.call, cancelOrder, engine, cancelOrder_book]
    rfl

theorem run_call {e : MatchingEngine P} (calls : List (Call P))
    (h : ∀ past, past <+: calls → f.Fits (e.run past).1) :
    (f.engine e).run (calls.map f.call) =
      (f.engine (e.run calls).1, (e.run calls).2.map f.reply) :=
  Machine.run_map calls fun past c hp =>
    f.call_call (h past ((List.prefix_append past [c]).trans hp)) c

end Relabelling

/-! ## Bids and asks are mirror images -/

/-- Buys become sells at the negated price. -/
def mirror : Relabelling ℚ ℚ where
  ids := Equiv.refl _
  client := id
  symbol := id
  price p := -p
  band b := -b
  mirrored := true
  better_iff s p q := by
    cases s
    · exact neg_lt_neg_iff
    · exact neg_lt_neg_iff

/-- The ends of the band change places, and they must not have done so before. -/
theorem mirror_keeps {b r : ℚ} (h : 0 ≤ r * b) : mirror.Keeps b r := by
  intro p
  have hhi : -r + -r * -b < -p ↔ p < r - r * b := by
    constructor <;> intro h <;> linarith
  have hlo : -p < -r - -r * -b ↔ r + r * b < p := by
    constructor <;> intro h <;> linarith
  change (if -r + -r * -b < -p then _ else if -p < -r - -r * -b then _ else _) =
    CollarResult.turn true (if r + r * b < p then _ else if p < r - r * b then _ else _)
  rw [if_congr hhi rfl rfl, if_congr hlo rfl rfl]
  by_cases htop : r + r * b < p
  · have hbottom : ¬ p < r - r * b := by linarith
    rw [if_neg hbottom, if_pos htop, if_pos htop]
    rfl
  · rw [if_neg htop, if_neg htop]
    split <;> rfl

namespace MatchingEngine

/-- **The sell side is the mirror image of the buy side.** With a band of at
least zero percent and no negative limit prices, exchanging buys and sells and
negating prices and band mirrors every reply and the whole engine. -/
theorem run_mirrored {band : ℚ} (hband : 0 ≤ band) {calls : List (Call ℚ)}
    (hcalls : ∀ o, .submit o ∈ calls → o.type = .limit → 0 ≤ o.price) :
    (new (-band)).run (calls.map mirror.call) =
      (mirror.engine ((new band).run calls).1, ((new band).run calls).2.map mirror.reply) := by
  have hnew : mirror.engine (new band) = new (-band) := mirror.engine_new (neg_div _ _).symm
  rw [← hnew]
  refine mirror.run_call calls fun past hpast r hr => mirror_keeps ?_
  have hnonneg : 0 ≤ r := run_reference_nonneg (fun o ho => hcalls o (hpast.subset ho)) hr
  have hfraction : 0 ≤ band / 100 := div_nonneg hband (by norm_num)
  rw [run_collar]
  exact mul_nonneg hnonneg hfraction

/-- A sell at 100, a buy that takes half of it, and one the collar refuses. -/
def tradeThenReject : List (Call ℚ) :=
  [.submit (Order.make 1 .sell .limit 100 10), .submit (Order.make 2 .buy .limit 100 5),
    .submit (Order.make 3 .buy .limit 120 5)]

theorem run_mirrored_trade_then_reject :
    ((new (-10 : ℚ)).run (tradeThenReject.map mirror.call)).2 =
      [.submitted (.trades []), .submitted (.trades [⟨1, 2, -100, 5, 3⟩]),
        .submitted (.rejection ⟨3, .priceTooLow⟩)] := by
  have hprices : ∀ o, .submit o ∈ tradeThenReject → o.type = .limit → 0 ≤ o.price := by
    intro o ho _
    simp only [tradeThenReject, List.mem_cons, Call.submit.injEq, List.not_mem_nil, or_false] at ho
    rcases ho with rfl | rfl | rfl <;> norm_num [Order.make]
  rw [run_mirrored (by norm_num) hprices]
  decide +kernel

end MatchingEngine

/-! ## Units of price -/

/-- All prices multiplied by `c`. -/
def scale (c : ℚ) (hc : 0 < c) : Relabelling ℚ ℚ where
  ids := Equiv.refl _
  client := id
  symbol := id
  price p := c * p
  band := id
  mirrored := false
  better_iff s p q := by
    cases s
    · exact mul_lt_mul_iff_right₀ hc
    · exact mul_lt_mul_iff_right₀ hc

theorem scale_keeps {c : ℚ} (hc : 0 < c) (b r : ℚ) : (scale c hc).Keeps b r := by
  intro p
  have hhi : c * r + c * r * b < c * p ↔ r + r * b < p := by
    rw [← mul_lt_mul_iff_right₀ hc (b := r + r * b), mul_add, mul_assoc]
  have hlo : c * p < c * r - c * r * b ↔ p < r - r * b := by
    rw [← mul_lt_mul_iff_right₀ hc (c := r - r * b), mul_sub, mul_assoc]
  change (if c * r + c * r * b < c * p then _ else if c * p < c * r - c * r * b then _ else _) =
    CollarResult.turn false (if r + r * b < p then _ else if p < r - r * b then _ else _)
  rw [if_congr hhi rfl rfl, if_congr hlo rfl rfl]
  split
  · rfl
  · split <;> rfl

namespace MatchingEngine

/-- **The unit of price does not matter.** Whatever the band, multiplying all
prices by a positive number multiplies the prices of the trades and of the
book by it and changes nothing else. -/
theorem run_scaled {c : ℚ} (hc : 0 < c) (band : ℚ) (calls : List (Call ℚ)) :
    (new band).run (calls.map (scale c hc).call) =
      ((scale c hc).engine ((new band).run calls).1,
        ((new band).run calls).2.map (scale c hc).reply) := by
  have hnew : (scale c hc).engine (new band) = new band := (scale c hc).engine_new rfl
  rw [← hnew]
  exact (scale c hc).run_call calls fun _ _ r _ => scale_keeps hc _ r

theorem run_scaled_cents :
    ((new (10 : ℚ)).run (tradeThenReject.map (scale 100 (by decide)).call)).2 =
      [.submitted (.trades []), .submitted (.trades [⟨2, 1, 10000, 5, 3⟩]),
        .submitted (.rejection ⟨3, .priceTooHigh⟩)] := by
  rw [run_scaled]
  decide +kernel

end MatchingEngine

/-! ## Ids and unread fields -/

section
variable {P : Type} [LT P] [DecidableLT P] [PriceArith P]

/-- Order ids are permuted, client ids and symbols changed at will. -/
def rename (ids : Equiv.Perm UInt64) (client : UInt64 → UInt64) (symbol : Symbol → Symbol) :
    Relabelling P P where
  ids := ids
  client := client
  symbol := symbol
  price := id
  band := id
  mirrored := false
  better_iff _ _ _ := Iff.rfl

theorem rename_keeps (ids : Equiv.Perm UInt64) (client : UInt64 → UInt64)
    (symbol : Symbol → Symbol) (b r : P) : (rename ids client symbol).Keeps b r := by
  intro p
  have hturn : ∀ c : CollarResult, c.turn false = c := by
    rintro ⟨accepted, reason⟩
    cases reason <;> rfl
  exact (hturn _).symm

namespace MatchingEngine

/-- **Order ids are names.** Renaming them one to one, and changing client ids
and symbols in any way, renames the ids in the replies and changes nothing else. -/
theorem run_renamed (ids : Equiv.Perm UInt64) (client : UInt64 → UInt64)
    (symbol : Symbol → Symbol) (band : P) (calls : List (Call P)) :
    (new band).run (calls.map (rename ids client symbol).call) =
      ((rename ids client symbol).engine ((new band).run calls).1,
        ((new band).run calls).2.map (rename ids client symbol).reply) := by
  have hnew : (rename ids client symbol).engine (new band) = new band :=
    (rename ids client symbol).engine_new rfl
  rw [← hnew]
  exact (rename ids client symbol).run_call calls fun _ _ r _ => rename_keeps ids client symbol _ r

end MatchingEngine

/-- An order without the fields `submit_order` does not read: it overwrites
the last two of them. -/
def Order.asRead (o : Order P) : Order P :=
  { o with
    clientId := 0
    symbol := Vector.replicate kSymbolLen 0
    remainingQuantity := 0
    timestamp := 0 }

def Call.asRead : Call P → Call P
  | .submit o => .submit o.asRead
  | .cancel id => .cancel id

/-- Orders that lost their client and their symbol. -/
def anonymous : Relabelling P P :=
  rename (Equiv.refl _) (fun _ => 0) fun _ => Vector.replicate kSymbolLen 0

theorem anonymous_reply (r : Reply P) : (anonymous : Relabelling P P).reply r = r := by
  have htrade : (anonymous : Relabelling P P).trade = id := rfl
  have hreason : ∀ r : RejectReason, r.turn false = r := by
    intro r
    cases r <;> rfl
  rcases r with (ts | ⟨id, reason⟩) | found
  · simp [Relabelling.reply, Relabelling.result, htrade]
  · simp [Relabelling.reply, Relabelling.result, anonymous, rename, hreason]
  · rfl

namespace MatchingEngine

theorem call_asRead (e : MatchingEngine P) (c : Call P) :
    (anonymous.engine e).call c.asRead = (anonymous.engine (e.call c).1, (e.call c).2) := by
  have hfits : (anonymous : Relabelling P P).Fits e := fun r _ => rename_keeps _ _ _ _ r
  have hread : (anonymous.engine e).call c.asRead = (anonymous.engine e).call (anonymous.call c) := by
    cases c <;> rfl
  rw [hread, anonymous.call_call hfits, anonymous_reply]

/-- **What an order's owner and symbol can do: nothing.** From any state, two
sequences of calls that agree in the fields `submit_order` reads get the same
replies. In particular one engine has one book for the orders of all symbols. -/
theorem run_unread (e : MatchingEngine P) {calls calls' : List (Call P)}
    (h : calls.map Call.asRead = calls'.map Call.asRead) :
    (e.run calls).2 = (e.run calls').2 := by
  have hrun : ∀ cs : List (Call P), (anonymous.engine e).run (cs.map Call.asRead) =
      (anonymous.engine (e.run cs).1, (e.run cs).2.map id) :=
    fun cs => Machine.run_map cs fun _ c _ => call_asRead _ c
  have hcalls := congrArg Prod.snd (hrun calls)
  rw [h, hrun calls'] at hcalls
  simpa using hcalls.symm

end MatchingEngine

end

namespace MatchingEngine

/-- A sell, and a buy of another client for another symbol. -/
def twoSymbols : List (Call ℚ) :=
  [.submit { Order.make 1 .sell .limit 100 10 with symbol := setSymbol [65, 65, 80, 76] },
    .submit { Order.make 2 .buy .limit 100 10 with
      clientId := 7, symbol := setSymbol [84, 83, 76, 65] }]

/-- In one engine they trade, as if neither had a symbol. -/
theorem run_unread_two_symbols :
    ((new 10).run twoSymbols).2 = ((new 10).run (twoSymbols.map Call.asRead)).2 ∧
      ((new 10).run (twoSymbols.map Call.asRead)).2 =
        [.submitted (.trades []), .submitted (.trades [⟨2, 1, 100, 10, 3⟩])] :=
  ⟨run_unread (new 10) rfl, by decide +kernel⟩

end MatchingEngine

end TradingSystem
