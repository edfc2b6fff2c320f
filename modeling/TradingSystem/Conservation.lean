import TradingSystem.Cancellation

/-!
# Conservation of quantity

A ledger lists what a run accepted, traded, cancelled and discarded. For
each side, and for each choice of ids on it, the accepted quantity is what
was traded plus what rests, was cancelled or was discarded. The equation is
an invariant of one round of the matching loop, kept apart for the incoming
order and for the side it trades with.
-/

namespace TradingSystem

open OrderedMap ListLemmas

structure Ledger (P : Type) where
  /-- Orders the collar let through, as submitted. -/
  accepted : List (Order P)
  trades : List (Trade P)
  /-- Orders a cancel removed, as they were when removed. -/
  cancelled : List (Order P)
  /-- Market orders as the matching loop left them. -/
  discarded : List (Order P)

namespace Ledger

variable {P : Type}

def empty : Ledger P := ⟨[], [], [], []⟩

def append (l l' : Ledger P) : Ledger P where
  accepted := l.accepted ++ l'.accepted
  trades := l.trades ++ l'.trades
  cancelled := l.cancelled ++ l'.cancelled
  discarded := l.discarded ++ l'.discarded

end Ledger

section
variable {P : Type}

def Order.ordered (o : Order P) : Nat := o.quantity.toNat

def Order.left (o : Order P) : Nat := o.remainingQuantity.toNat

def Trade.filled (t : Trade P) : Nat := t.quantity.toNat

/-- Orders of side `s` with a selected id. -/
def ofSide (s : Side) (ids : UInt64 → Bool) (o : Order P) : Bool := o.side == s && ids o.orderId

/-- Orders with a selected id. -/
def withId (ids : UInt64 → Bool) (o : Order P) : Bool := ids o.orderId

/-- Trades that name a selected id on side `s`. -/
def naming (s : Side) (ids : UInt64 → Bool) (t : Trade P) : Bool := ids (t.orderId s)

/-- With distinct ids the quantity accepted under an id is the order's own. -/
theorem total_ordered_unique {os : List (Order P)} (hnd : (os.map Order.orderId).Nodup)
    {o : Order P} (ho : o ∈ os) (s : Side) :
    total (ofSide s (· == o.orderId)) Order.ordered os = if o.side = s then o.ordered else 0 := by
  induction os with
  | nil => cases ho
  | cons a os ih =>
    obtain ⟨hfresh, hnd⟩ := List.nodup_cons.mp hnd
    rw [total_cons]
    rcases List.mem_cons.mp ho with rfl | ho
    · have hzero : total (ofSide s (· == o.orderId)) Order.ordered os =
          total (fun _ => false) Order.ordered os := by
        apply total_congr
        intro b hb
        have hne : b.orderId ≠ o.orderId := fun heq => hfresh (heq ▸ List.mem_map_of_mem hb)
        simp [ofSide, hne]
      rw [hzero]
      by_cases hs : o.side = s
      · simp [total, ofSide, hs]
      · simp [total, ofSide, hs, beq_false_of_ne hs]
    · have hne : (a.orderId == o.orderId) = false :=
        beq_false_of_ne fun heq => hfresh (heq ▸ List.mem_map_of_mem ho)
      rw [ih hnd ho]
      simp [ofSide, hne]

/-- Whether a trade names the order with this id, on either side. -/
def names (id : UInt64) (t : Trade P) : Bool := t.buyOrderId == id || t.sellOrderId == id

/-- Orders of one side are selected by their ids, or not at all. -/
theorem total_ofSide {s : Side} {os : List (Order P)} (h : ∀ o ∈ os, o.side = s)
    (ids : UInt64 → Bool) (q : Order P → ℕ) :
    total (ofSide s ids) q os = total (withId ids) q os ∧
      total (ofSide s.opposite ids) q os = 0 := by
  constructor
  · apply total_congr
    intro o ho
    simp [ofSide, withId, h o ho]
  · have hnone : total (ofSide s.opposite ids) q os = total (fun _ => false) q os := by
      apply total_congr
      intro o ho
      simp [ofSide, h o ho]
    rw [hnone]
    simp [total]

theorem total_withId (id : UInt64) (q : Order P → Nat) (os : List (Order P)) :
    total (withId (· == id)) q os =
      total (ofSide .buy (· == id)) q os + total (ofSide .sell (· == id)) q os := by
  induction os with
  | nil => rfl
  | cons a os ih =>
    have hbs : (Side.buy == Side.sell) = false := rfl
    have hsb : (Side.sell == Side.buy) = false := rfl
    simp only [total_cons, ih, ofSide, withId]
    cases a.side <;> simp [hbs, hsb] <;> omega

/-! ## One round, one loop -/

/-- Filled so far by the incoming order, if it is selected, and still open. -/
def MatchState.incomingBalance (ids : UInt64 → Bool) (s : MatchState P) : Nat :=
  total (naming s.incoming.side ids) Trade.filled s.trades + total (withId ids) Order.left [s.incoming]

/-- Filled so far by selected resting orders, and still resting. -/
def MatchState.oppositeBalance (ids : UInt64 → Bool) (s : MatchState P) : Nat :=
  total (naming s.incoming.side.opposite ids) Trade.filled s.trades +
    total (withId ids) Order.left (Levels.orders s.opposite)

theorem left_take_incoming (incoming front : Order P) :
    (incoming.take (fillQuantity incoming front)).left + (fillQuantity incoming front).toNat =
      incoming.left :=
  toNat_take_incoming incoming front

theorem total_remainder (ids : UInt64 → Bool) (incoming front : Order P) :
    total (withId ids) Order.left (remainder incoming front) +
      cond (ids front.orderId) (fillQuantity incoming front).toNat 0 =
    total (withId ids) Order.left [front] := by
  have h := toNat_take_front incoming front
  simp only [remainder]
  split
  · rename_i hz
    rw [hz] at h
    cases hid : ids front.orderId <;> simp [withId, Order.left, hid]
    simpa using h
  · cases hid : ids front.orderId <;> simp [withId, Order.left, hid]
    exact h

variable [LT P] [DecidableLT P]

theorem matchStep_balance {s t : MatchState P} (hstep : matchStep s = some t)
    (ids : UInt64 → Bool) :
    t.incomingBalance ids = s.incomingBalance ids ∧
      t.oppositeBalance ids = s.oppositeBalance ids := by
  obtain ⟨p, front, queue, rest, hopp, -, -, rfl⟩ := matchStep_some.mp hstep
  constructor
  · have hleft := left_take_incoming s.incoming front
    simp only [MatchState.incomingBalance, MatchState.fill, total_append, total_cons, total_nil,
      naming, withId, Order.take_side, Order.take_orderId, makeTrade_orderId, Trade.filled]
    cases ids s.incoming.orderId
    · rfl
    · simp only [makeTrade, cond_true]
      omega
  · have hrem := total_remainder ids s.incoming front
    simp only [MatchState.oppositeBalance, orders_fill, hopp, Levels.orders_cons]
    simp only [MatchState.fill, total_append, total_cons, total_nil, naming, withId,
      Order.take_side, makeTrade_orderId_opposite, Trade.filled] at hrem ⊢
    simp only [makeTrade]
    omega

theorem matched_balance (e : MatchingEngine P) (o : Order P) (ids : UInt64 → Bool) :
    (e.matched o).incomingBalance ids = total (withId ids) Order.ordered [o] ∧
      (e.matched o).oppositeBalance ids =
        total (withId ids) Order.left (e.book.orders o.side.opposite) := by
  refine MatchingEngine.matched_invariant (I := fun s =>
    s.incomingBalance ids = total (withId ids) Order.ordered [o] ∧
      s.oppositeBalance ids = total (withId ids) Order.left (e.book.orders o.side.opposite)) ?_ ?_
  · intro s t hs hstep
    obtain ⟨h₁, h₂⟩ := matchStep_balance hstep ids
    exact ⟨h₁.trans hs.1, h₂.trans hs.2⟩
  · constructor
    · simp [MatchState.incomingBalance, MatchingEngine.enter, MatchingEngine.stamp, withId,
        Order.left, Order.ordered]
    · simp [MatchState.oppositeBalance, MatchingEngine.enter, MatchingEngine.stamp,
        OrderBook.orders]

end

/-! ## What a call adds to the ledger -/

section
variable {P : Type} [LT P] [DecidableLT P]

variable [PriceArith P]

namespace MatchingEngine

def entry (e : MatchingEngine P) : Call P → Ledger P
  | .submit o =>
    match (e.submitOrder o).2 with
    | .rejection _ => .empty
    | .trades ts =>
      { accepted := [o]
        trades := ts
        cancelled := []
        discarded := if o.type = .market then [(e.matched o).incoming] else [] }
  | .cancel id => { Ledger.empty with cancelled := (e.book.cancelTarget id).toList }

def ledger (e : MatchingEngine P) : List (Call P) → Ledger P
  | [] => .empty
  | c :: calls => (e.entry c).append ((e.call c).1.ledger calls)

theorem accepted_ids_sublist (e : MatchingEngine P) (calls : List (Call P)) :
    ((e.ledger calls).accepted.map Order.orderId).Sublist (submittedIds calls) := by
  induction calls generalizing e with
  | nil => exact List.Sublist.refl _
  | cons c calls ih =>
    have hlater := ih (e.call c).1
    simp only [ledger, Ledger.append, List.map_append]
    cases c with
    | cancel id => exact hlater
    | submit o =>
      have hids : submittedIds (.submit o :: calls) = o.orderId :: submittedIds calls := rfl
      rw [hids]
      cases ha : (e.collarCheck o).accepted with
      | false =>
        simp only [entry, submitOrder_rejected ha, Ledger.empty, List.map_nil, List.nil_append]
        exact hlater.cons _
      | true =>
        simp only [entry, submitOrder_accepted ha, List.map_cons, List.map_nil,
          List.singleton_append]
        exact hlater.cons_cons _

end MatchingEngine

/-- The trades in a list of replies. -/
def Reply.trades : Reply P → List (Trade P)
  | .submitted (.trades ts) => ts
  | _ => []

/-- The ledger's trades are the ones the calls returned. -/
theorem ledger_trades (e : MatchingEngine P) (calls : List (Call P)) :
    (e.ledger calls).trades = (e.run calls).2.flatMap Reply.trades := by
  induction calls generalizing e with
  | nil => rfl
  | cons c calls ih =>
    simp only [MatchingEngine.ledger, Ledger.append, ih, MatchingEngine.run_cons, List.flatMap_cons]
    congr 1
    cases c with
    | cancel id => rfl
    | submit o =>
      simp only [MatchingEngine.entry, MatchingEngine.call, Reply.trades]
      cases (e.submitOrder o).2 <;> rfl

end

variable {P : Type} [LinearOrder P]

theorem total_resting {b : OrderBook P} (h : b.WF) (s : Side) (ids : UInt64 → Bool) :
    total (ofSide s ids) Order.left b.resting = total (withId ids) Order.left (b.orders s) := by
  have hside (t : Side) : ∀ o ∈ b.orders t, o.side = t := fun _ ho => (h.rests ho).side
  have hown := (total_ofSide (hside s) ids Order.left).1
  have hother := (total_ofSide (hside s.opposite) ids Order.left).2
  rw [s.opposite_opposite] at hother
  rw [total_perm (b.resting_perm s), total_append, hown, hother, Nat.add_zero]

namespace MatchingEngine

/-- What is left of the incoming order rests or is discarded. -/
theorem rest_total (e : MatchingEngine P) (incoming : Order P)
    (sel : Order P → Bool) :
    total sel Order.left ((e.rest incoming).book.orders incoming.side) +
        total sel Order.left (if incoming.type = .market then [incoming] else []) =
      total sel Order.left (e.book.orders incoming.side) +
        total sel Order.left [incoming] := by
  unfold rest
  split
  · rename_i hr
    have hpush := OrderBook.addRestingOrder_orders e.book incoming
    have hperm := Levels.pushBack_perm incoming.side incoming (e.book.levels incoming.side)
    simp only [hpush, total_perm hperm, hr.2, reduceCtorEq, ite_false, total_cons, total_nil]
    simp only [OrderBook.orders]
    omega
  · rename_i hr
    cases ht : incoming.type with
    | market => simp
    | limit =>
      have hz : incoming.left = 0 := by
        rw [Order.left, ← eq_zero_iff_toNat_eq_zero, ← not_pos_iff_eq_zero]
        exact fun hpos => hr ⟨hpos, ht⟩
      simp [hz]

variable [PriceArith P]

/-- The equation one call contributes. -/
theorem entry_conserved {e : MatchingEngine P} (hwf : e.book.WF) (c : Call P) (s : Side)
    (ids : UInt64 → Bool) :
    total (ofSide s ids) Order.ordered (e.entry c).accepted +
        total (ofSide s ids) Order.left e.book.resting =
      total (naming s ids) Trade.filled (e.entry c).trades +
        total (ofSide s ids) Order.left (e.call c).1.book.resting +
        total (ofSide s ids) Order.left (e.entry c).cancelled +
        total (ofSide s ids) Order.left (e.entry c).discarded := by
  cases c with
  | cancel id =>
    have hperm := e.book.cancelTarget_perm id
    simp only [entry, Ledger.empty, total_nil, call, cancelOrder, total_perm hperm, total_append]
    omega
  | submit o =>
    cases ha : (e.collarCheck o).accepted with
    | false => simp [entry, call, submitOrder_rejected ha, Ledger.empty]
    | true =>
      obtain ⟨hin, hopp⟩ := matched_balance e o ids
      obtain ⟨hown, hother⟩ := leave_orders e o
      have hside := e.matched_side o
      have haccepted : ∀ a ∈ [o], a.side = o.side := by simp
      have hdiscarded : ∀ a ∈ (if o.type = .market then [(e.matched o).incoming] else []),
          a.side = o.side := by
        split <;> simp
      simp only [entry, call, submitOrder_accepted ha]
      rw [total_resting hwf, total_resting (submit_WF hwf o)]
      rcases o.side.eq_or_eq_opposite s with rfl | rfl
      · have hrest := rest_total (e.tick.leave (e.matched o)) (e.matched o).incoming (withId ids)
        rw [hside, hown, matched_type] at hrest
        simp only [MatchState.incomingBalance, hside] at hin
        rw [(total_ofSide haccepted ids _).1, (total_ofSide hdiscarded ids _).1, total_nil]
        omega
      · have hrest := rest_orders_opposite (e.tick.leave (e.matched o)) (e.matched o).incoming
        rw [hside, hother] at hrest
        simp only [MatchState.oppositeBalance, hside] at hopp
        rw [(total_ofSide haccepted ids _).2, (total_ofSide hdiscarded ids _).2, hrest, total_nil]
        omega

theorem call_WF {e : MatchingEngine P} (hwf : e.book.WF) (c : Call P) : (e.call c).1.book.WF := by
  cases c with
  | cancel id => exact cancelOrder_WF hwf id
  | submit o =>
    cases ha : (e.collarCheck o).accepted with
    | false => simpa [call, submitOrder_rejected ha] using hwf
    | true => simpa [call, submitOrder_accepted ha] using submit_WF hwf o

theorem ledger_conserved {e : MatchingEngine P} (hwf : e.book.WF) (calls : List (Call P))
    (s : Side) (ids : UInt64 → Bool) :
    total (ofSide s ids) Order.ordered (e.ledger calls).accepted +
        total (ofSide s ids) Order.left e.book.resting =
      total (naming s ids) Trade.filled (e.ledger calls).trades +
        total (ofSide s ids) Order.left (e.run calls).1.book.resting +
        total (ofSide s ids) Order.left (e.ledger calls).cancelled +
        total (ofSide s ids) Order.left (e.ledger calls).discarded := by
  induction calls generalizing e with
  | nil => simp [ledger, Ledger.empty, run]
  | cons c calls ih =>
    have hentry := entry_conserved hwf c s ids
    have hlater := ih (call_WF hwf c)
    simp only [ledger, Ledger.append, total_append, run_cons]
    omega

end MatchingEngine

open MatchingEngine in
/-- **Conservation.** Over any calls on a fresh engine each side's accepted
quantity is traded, resting, cancelled or discarded; with distinct ids so is
each order's own, hence no order executes more than its quantity. The two
subtractions of a round never wrap. -/
theorem quantity_conserved [PriceArith P] (band : P) (calls : List (Call P)) :
    (∀ s, total (·.side == s) Order.ordered ((new band).ledger calls).accepted =
      total (fun _ => true) Trade.filled (((new band).run calls).2.flatMap Reply.trades) +
        total (fun _ => true) Order.left (((new band).run calls).1.book.orders s) +
        total (·.side == s) Order.left ((new band).ledger calls).cancelled +
        total (·.side == s) Order.left ((new band).ledger calls).discarded) ∧
    ((submittedIds calls).Nodup → ∀ o ∈ ((new band).ledger calls).accepted,
      o.quantity.toNat =
        total (names o.orderId) Trade.filled (((new band).run calls).2.flatMap Reply.trades) +
          total (·.orderId == o.orderId) Order.left ((new band).run calls).1.book.resting +
          total (·.orderId == o.orderId) Order.left ((new band).ledger calls).cancelled +
          total (·.orderId == o.orderId) Order.left ((new band).ledger calls).discarded ∧
      total (names o.orderId) Trade.filled (((new band).run calls).2.flatMap Reply.trades) ≤
        o.quantity.toNat) ∧
    ∀ incoming front : Order P,
      fillQuantity incoming front ≤ incoming.remainingQuantity ∧
        fillQuantity incoming front ≤ front.remainingQuantity := by
  have hlaw := fun s ids => ledger_conserved (e := new band) OrderBook.WF.empty calls s ids
  have hwf := run_WF band calls
  rw [← ledger_trades]
  refine ⟨?_, ?_, fun incoming front =>
    ⟨fillQuantity_le_incoming incoming front, fillQuantity_le_front incoming front⟩⟩
  · intro s
    have h := hlaw s (fun _ => true)
    rw [total_resting hwf] at h
    have hsel : ofSide (P := P) s (fun _ => true) = (·.side == s) := by
      funext o
      simp [ofSide]
    rw [hsel] at h
    exact h
  · intro hnd o ho
    have hunique := total_ordered_unique
      ((accepted_ids_sublist (new band) calls).nodup hnd) ho
    have hbuy := hlaw .buy (· == o.orderId)
    have hsell := hlaw .sell (· == o.orderId)
    have hr := total_withId o.orderId Order.left ((new band).run calls).1.book.resting
    have hc := total_withId o.orderId Order.left ((new band).ledger calls).cancelled
    have hd := total_withId o.orderId Order.left ((new band).ledger calls).discarded
    have hor := total_or_add_and (naming .buy (· == o.orderId)) (naming .sell (· == o.orderId))
      Trade.filled ((new band).ledger calls).trades
    obtain ⟨hand, hand'⟩ := total_and_le (naming .buy (· == o.orderId))
      (naming .sell (· == o.orderId)) Trade.filled ((new band).ledger calls).trades
    have hempty : (new band).book.resting = [] := rfl
    simp only [hunique, hempty, total_nil] at hbuy hsell
    change total (names o.orderId) Trade.filled _ + _ = _ at hor
    change total (·.orderId == o.orderId) Order.left _ = _ at hr hc hd
    -- one of the two sides has accepted nothing under this id
    have hq : o.quantity.toNat = o.ordered := rfl
    cases hs : o.side
    · simp only [hs, reduceCtorEq, ite_true, ite_false] at hbuy hsell
      omega
    · simp only [hs, reduceCtorEq, ite_true, ite_false] at hbuy hsell
      omega

open MatchingEngine in
/-- A sell of 10 of which a market buy takes 4 before the rest is cancelled. -/
theorem quantity_conserved_cancelled_rest :
    (10 : ℕ) =
      total (names 1) Trade.filled
          (((new (10 : ℚ)).run [.submit (Order.make 1 .sell .limit 100 10),
            .submit (Order.make 2 .buy .market 0 4), .cancel 1]).2.flatMap Reply.trades) +
        total (·.orderId == 1) Order.left
          ((new (10 : ℚ)).run [.submit (Order.make 1 .sell .limit 100 10),
            .submit (Order.make 2 .buy .market 0 4), .cancel 1]).1.book.resting +
        total (·.orderId == 1) Order.left
          ((new (10 : ℚ)).ledger [.submit (Order.make 1 .sell .limit 100 10),
            .submit (Order.make 2 .buy .market 0 4), .cancel 1]).cancelled +
        total (·.orderId == 1) Order.left
          ((new (10 : ℚ)).ledger [.submit (Order.make 1 .sell .limit 100 10),
            .submit (Order.make 2 .buy .market 0 4), .cancel 1]).discarded :=
  ((quantity_conserved (10 : ℚ) [.submit (Order.make 1 .sell .limit 100 10),
    .submit (Order.make 2 .buy .market 0 4), .cancel 1]).2.1 (by decide)
    (Order.make 1 .sell .limit 100 10) List.mem_cons_self).1

end TradingSystem
