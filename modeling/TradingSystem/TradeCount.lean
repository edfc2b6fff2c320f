import TradingSystem.EngineMain
import TradingSystem.Timestamps

/-!
# How many trades a run can make

Each round of the matching loop removes a resting order or fills the incoming
one, so the rounds are paid for by orders that came in: the resting orders are
the potential of an amortised count. Over a run there are at most as many
trades as accepted orders. So a run draws at most two timestamps for each
submission, and no log produces more trades than it has records.
-/

namespace TradingSystem

variable {P : Type} [LT P] [DecidableLT P]

/-- A round adds one trade and uses up one of the rounds left. -/
theorem matchStep_paid {s t : MatchState P} (h : matchStep s = some t) :
    t.trades.length + t.rounds ≤ s.trades.length + s.rounds := by
  have hrounds := matchStep_rounds h
  obtain ⟨p, front, queue, rest, -, -, -, rfl⟩ := matchStep_some.mp h
  have htrades : (s.fill p front queue rest).trades.length = s.trades.length + 1 := by
    simp [MatchState.fill]
  omega

namespace MatchingEngine

theorem matched_paid (e : MatchingEngine P) (o : Order P) :
    (e.matched o).trades.length + (e.matched o).rounds ≤
      (e.book.levels o.side.opposite).orders.length + 1 := by
  have hstart : (e.tick.enter (e.stamp o)).trades.length + (e.tick.enter (e.stamp o)).rounds ≤
      (e.book.levels o.side.opposite).orders.length + 1 := by
    have hopp : (e.tick.enter (e.stamp o)).opposite = e.book.levels o.side.opposite := rfl
    have hnone : (e.tick.enter (e.stamp o)).trades = [] := rfl
    rw [MatchState.rounds, hopp, hnone, List.length_nil]
    split <;> omega
  refine matched_invariant (I := fun s => s.trades.length + s.rounds ≤
    (e.book.levels o.side.opposite).orders.length + 1) ?_ hstart
  intro s t hs hstep
  exact (matchStep_paid hstep).trans hs

/-- What is left of an order rests at most once. -/
theorem rest_resting_length (e : MatchingEngine P) (incoming : Order P) :
    (e.rest incoming).book.resting.length ≤
      e.book.resting.length + if 0 < incoming.remainingQuantity then 1 else 0 := by
  unfold rest
  split
  · rename_i hr
    rw [(e.book.addRestingOrder_perm incoming).length_eq, List.length_cons, if_pos hr.1]
  · exact Nat.le_add_right _ _

/-- An accepted order pays for one trade or for its own place in the book; the
other trades are paid for by the orders they remove. -/
theorem submit_paid (e : MatchingEngine P) (o : Order P) :
    (e.matched o).trades.length +
        ((e.tick.leave (e.matched o)).rest (e.matched o).incoming).book.resting.length ≤
      e.book.resting.length + 1 := by
  have hrest := (e.tick.leave (e.matched o)).rest_resting_length (e.matched o).incoming
  have hleave := (e.leave_resting o).length_eq
  have hbefore := (e.book.resting_perm o.side).length_eq
  have hpaid := e.matched_paid o
  rw [MatchState.rounds] at hpaid
  rw [List.length_append] at hleave hbefore
  simp only [OrderBook.orders] at hleave hbefore
  omega

variable [PriceArith P]

theorem entry_paid (e : MatchingEngine P) (c : Call P) :
    (e.entry c).trades.length + (e.call c).1.book.resting.length + (e.entry c).cancelled.length ≤
      e.book.resting.length + (e.entry c).accepted.length := by
  cases c with
  | cancel id =>
    have hperm := (e.book.cancelTarget_perm id).length_eq
    rw [List.length_append] at hperm
    simp only [entry, call, cancelOrder, Ledger.empty, List.length_nil]
    omega
  | submit o =>
    cases ha : (e.collarCheck o).accepted with
    | false => simp [entry, call, submitOrder_rejected ha, Ledger.empty]
    | true =>
      have hpaid := e.submit_paid o
      simp only [entry, call, submitOrder_accepted ha, List.length_nil, List.length_singleton]
      omega

theorem ledger_paid (e : MatchingEngine P) (calls : List (Call P)) :
    (e.ledger calls).trades.length + (e.run calls).1.book.resting.length +
        (e.ledger calls).cancelled.length ≤
      e.book.resting.length + (e.ledger calls).accepted.length := by
  induction calls generalizing e with
  | nil => simp [ledger, Ledger.empty, run]
  | cons c calls ih =>
    have hentry := e.entry_paid c
    have hlater := ih (e.call c).1
    simp only [ledger, Ledger.append, List.length_append, run_cons]
    omega

/-- **Every trade is paid for by an accepted order.** After any calls on a
fresh engine, the trades emitted, the orders resting and the orders cancelled
are together no more than the orders accepted. -/
theorem trades_le_accepted (band : P) (calls : List (Call P)) :
    ((new band).ledger calls).trades.length + ((new band).run calls).1.book.resting.length +
        ((new band).ledger calls).cancelled.length ≤
      ((new band).ledger calls).accepted.length := by
  have hpaid := (new band).ledger_paid calls
  have hempty : (new band).book.resting.length = 0 := rfl
  omega

/-! ## Timestamps -/

/-- A submission draws its own timestamp and those of its trades. -/
theorem issued_length (e : MatchingEngine P) (calls : List (Call P)) :
    (e.issued calls).length = (submittedIds calls).length + (e.ledger calls).trades.length := by
  induction calls generalizing e with
  | nil => rfl
  | cons c calls ih =>
    have hentry : (e.entry c).trades = (e.call c).2.trades := by
      cases c with
      | cancel id => rfl
      | submit o =>
        simp only [entry, call, Reply.trades]
        cases (e.submitOrder o).2 <;> rfl
    simp only [issued, ledger, Ledger.append, List.length_append, ih, hentry]
    cases c with
    | cancel id => simp [drawn, submittedIds, call, Reply.trades]
    | submit o =>
      simp only [drawn, submittedIds, List.filterMap_cons, List.length_cons, List.length_map]
      omega

theorem accepted_le_submitted (e : MatchingEngine P) (calls : List (Call P)) :
    (e.ledger calls).accepted.length ≤ (submittedIds calls).length := by
  have hsub := (accepted_ids_sublist e calls).length_le
  rwa [List.length_map] at hsub

/-- **The timestamp counter lasts.** With fewer than 2^63 submissions, and any
cancels in between, no timestamp is given out twice and all of them are
below the counter. -/
theorem stamps_last (band : P) {calls : List (Call P)}
    (h : (submittedIds calls).length < 2 ^ 63) :
    ((new band).issued calls).Nodup ∧
      ∀ t ∈ (new band).issued calls, t < ((new band).run calls).1.nextTimestamp := by
  have hcount := (new band).issued_length calls
  have hpaid := (new band).ledger_paid calls
  have hempty : (new band).book.resting.length = 0 := rfl
  have haccepted := (new band).accepted_le_submitted calls
  have hfew : ((new band).issued calls).length + 1 < 2 ^ 64 := by omega
  obtain ⟨hissued, hnext⟩ := (new band).issued_eq calls
  constructor
  · rw [hissued]
    exact stampsFrom_nodup (by omega)
  · intro t ht
    rw [hissued] at ht
    rw [hnext]
    exact lt_next_of_mem_stampsFrom hfew ht

/-- A sell, a buy that takes it and a cancel draw three timestamps. -/
theorem stamps_last_trade :
    (new (10 : ℚ)).issued [.submit (Order.make 1 .sell .limit 100 10),
        .submit (Order.make 2 .buy .limit 100 10), .cancel 1] = [1, 2, 3] ∧
      ((new (10 : ℚ)).issued [.submit (Order.make 1 .sell .limit 100 10),
        .submit (Order.make 2 .buy .limit 100 10), .cancel 1]).Nodup :=
  ⟨by decide +kernel, (stamps_last 10 (by decide)).1⟩

end MatchingEngine

/-! ## The engines of a log -/

variable [PriceArith P]

theorem submitOrder_paid (e : MatchingEngine P) (o : Order P) :
    (e.submitOrder o).2.tradeList.length + (e.submitOrder o).1.book.resting.length ≤
      e.book.resting.length + 1 := by
  cases ha : (e.collarCheck o).accepted with
  | false => simp [MatchingEngine.submitOrder_rejected ha, SubmitResult.tradeList]
  | true =>
    rw [MatchingEngine.submitOrder_accepted ha]
    exact e.submit_paid o

theorem replay_eq_bank (log : List (Order P)) :
    (Engines.replay log).2 =
      (Machine.run (Machine.bank Order.symbolStr MatchingEngine.submitOrder)
        (fun _ => Engines.fresh) log).2.map Prod.snd := by
  have hplain : Machine.run Engines.apply (id Engines.empty) (log.map id) =
      (id (Machine.run Engines.serve Engines.empty log).1,
        (Machine.run Engines.serve Engines.empty log).2.map Prod.snd) :=
    Machine.run_map log fun _ _ _ => rfl
  rw [List.map_id] at hplain
  rw [← serve_run_eq_bank]
  exact congrArg Prod.snd hplain

/-- **No log produces more trades than it has records**, however many symbols
share it. -/
theorem canonicalTrades_le_log (log : List (Order P)) :
    (canonicalTrades log).length ≤ log.length := by
  have hkeys : ∀ o ∈ log, o.symbolStr ∈ (log.map Order.symbolStr).toFinset :=
    fun o ho => List.mem_toFinset.mpr (List.mem_map_of_mem ho)
  have hcost := Machine.bank_cost Order.symbolStr (fun r : SubmitResult P => r.tradeList.length)
    (fun e : MatchingEngine P => e.book.resting.length) submitOrder_paid
    (s := fun _ => Engines.fresh) hkeys
  have hempty : (Engines.fresh : MatchingEngine P).book.resting.length = 0 := rfl
  rw [canonicalTrades, replay_eq_bank, List.length_flatMap, List.map_map]
  simp only [hempty, Finset.sum_const_zero, Nat.add_zero] at hcost
  exact (Nat.le_add_right _ _).trans hcost

end TradingSystem
