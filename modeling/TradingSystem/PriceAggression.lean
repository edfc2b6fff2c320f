import TradingSystem.CollarBand
import TradingSystem.Conservation

/-!
# A more aggressive price never does worse

The price of an incoming order decides where the matching loop stops and
nothing else. A loop with a more aggressive price, or with none, makes the
rounds of the other loop and goes on from where that one stopped.
-/

namespace TradingSystem

open ListLemmas

variable {P : Type}

/-- The loop of the same order at another price and of another type. -/
def MatchState.reprice (s : MatchState P) (price : P) (type : OrderType) : MatchState P :=
  { s with incoming := { s.incoming with price := price, type := type } }

theorem MatchState.fill_reprice (s : MatchState P) (price : P) (type : OrderType) (p : P)
    (front : Order P) (queue : List (Order P)) (rest : Levels P) :
    (s.reprice price type).fill p front queue rest =
      (s.fill p front queue rest).reprice price type := rfl

def filledQuantity (ts : List (Trade P)) : ℕ := (ts.map Trade.filled).sum

theorem filledQuantity_mono {ts ts' : List (Trade P)} (h : ts <+: ts') :
    filledQuantity ts ≤ filledQuantity ts' := by
  obtain ⟨more, rfl⟩ := h
  simp [filledQuantity]

section
variable [LT P] [DecidableLT P]

/-- The loop that is stopped less often continues where the other one ended. -/
theorem matchAgainst_reprice {price : P} {type : OrderType} (s : MatchState P)
    (h : ∀ p, (s.reprice price type).incoming.stopsAt p = true → s.incoming.stopsAt p = true) :
    matchAgainst (s.reprice price type) = matchAgainst ((matchAgainst s).reprice price type) := by
  induction s using MatchState.rounds_induction with
  | exit s hs => rw [matchAgainst_done hs]
  | round s t hs ih =>
    obtain ⟨p, front, queue, rest, hopp, hpos, hgo, rfl⟩ := matchStep_some.mp hs
    have hgo' : (s.reprice price type).incoming.stopsAt p = false := by
      by_contra hstop
      rw [h p (Bool.of_not_eq_false hstop)] at hgo
      cases hgo
    have hs' : matchStep (s.reprice price type) =
        some ((s.fill p front queue rest).reprice price type) := by
      rw [← s.fill_reprice]
      exact matchStep_some.mpr ⟨p, front, queue, rest, hopp, hpos, hgo', rfl⟩
    rw [matchAgainst_step hs, matchAgainst_step hs']
    exact ih h

namespace MatchingEngine

theorem matched_filled (e : MatchingEngine P) (o : Order P) :
    filledQuantity (e.matched o).trades + (e.matched o).incoming.remainingQuantity.toNat =
      o.quantity.toNat := by
  have hbalance : total (fun _ => true) Trade.filled (e.matched o).trades +
      total (fun _ => true) Order.left [(e.matched o).incoming] =
        total (fun _ => true) Order.ordered [o] := (matched_balance e o fun _ => true).1
  simpa [total, filledQuantity, Order.left, Order.ordered] using hbalance

/-- The trades of an order are the first trades of one that is stopped less
often, and all of them if nothing is left. -/
theorem matched_reprice (e : MatchingEngine P) (o : Order P) (price : P) (type : OrderType)
    (h : ∀ p, ({ o with price := price, type := type } : Order P).stopsAt p = true →
      o.stopsAt p = true) :
    (e.matched o).trades <+: (e.matched { o with price := price, type := type }).trades ∧
      (filledQuantity (e.matched o).trades = o.quantity.toNat →
        (e.matched o).trades = (e.matched { o with price := price, type := type }).trades) := by
  have hresume : e.matched { o with price := price, type := type } =
      matchAgainst ((e.matched o).reprice price type) :=
    matchAgainst_reprice (e.tick.enter (e.stamp o)) h
  rw [hresume]
  refine ⟨matchAgainst_extends_trades ((e.matched o).reprice price type), fun hall => ?_⟩
  have hnone : (e.matched o).incoming.remainingQuantity = 0 := by
    have := e.matched_filled o
    rw [eq_zero_iff_toNat_eq_zero]
    omega
  -- nothing is left to continue with
  rw [matchAgainst_of_filled (s := (e.matched o).reprice price type) hnone]
  rfl

end MatchingEngine

end

section
variable [LinearOrder P]

/-- `p'` is at least as aggressive as `p`: for a buy as high, for a sell as low. -/
def Side.AsAggressive : Side → P → P → Prop
  | .buy, p, p' => p ≤ p'
  | .sell, p, p' => p' ≤ p

theorem Side.AsAggressive.stopsAt {o : Order P} {p' : P} (h : o.side.AsAggressive o.price p')
    (p : P) (hstop : ({ o with price := p' } : Order P).stopsAt p = true) :
    o.stopsAt p = true := by
  rw [Order.stopsAt_iff] at hstop ⊢
  refine ⟨hstop.1, ?_⟩
  obtain ⟨-, hbetter⟩ := hstop
  cases hs : o.side with
  | buy =>
    simp only [hs, Side.AsAggressive, Side.opposite, better] at h hbetter ⊢
    exact lt_of_le_of_lt h hbetter
  | sell =>
    simp only [hs, Side.AsAggressive, Side.opposite, better] at h hbetter ⊢
    exact lt_of_lt_of_le hbetter h

namespace MatchingEngine

variable [PriceArith P]

/-- **A more aggressive price never does worse.** In any state, of two accepted
limit orders that differ only in price the trades of the less aggressive one
are the first trades of the other, and both are the first trades of the market
order. So the filled quantity grows with the price, and if the order at the
less aggressive price is filled completely all three trade alike. -/
theorem aggressive_price_extends_trades (e : MatchingEngine P) {o : Order P}
    {p' : P} (hp : o.side.AsAggressive o.price p') {ts ts' : List (Trade P)}
    (hts : (e.submitOrder o).2 = .trades ts)
    (hts' : (e.submitOrder { o with price := p' }).2 = .trades ts') (q : P) :
    ∃ ms, (e.submitOrder { o with type := .market, price := q }).2 = .trades ms ∧
      ts <+: ts' ∧ ts' <+: ms ∧
      filledQuantity ts ≤ filledQuantity ts' ∧ filledQuantity ts' ≤ filledQuantity ms ∧
      (filledQuantity ts = o.quantity.toNat → ts = ts' ∧ ts' = ms) := by
  have ha := trades_iff.mp ⟨ts, hts⟩
  have ha' := trades_iff.mp ⟨ts', hts'⟩
  rw [submitOrder_accepted ha] at hts
  rw [submitOrder_accepted ha'] at hts'
  obtain rfl := SubmitResult.trades.inj hts
  obtain rfl := SubmitResult.trades.inj hts'
  obtain ⟨hextends, hsame⟩ := e.matched_reprice o p' o.type hp.stopsAt
  -- a market order is stopped by no price
  obtain ⟨hextends', hsame'⟩ := e.matched_reprice { o with price := p' } q .market fun p hstop => by
    simp [Order.stopsAt] at hstop
  refine ⟨_, congrArg Prod.snd (submitOrder_accepted rfl), hextends, hextends',
    filledQuantity_mono hextends, filledQuantity_mono hextends', fun hall => ?_⟩
  have heq := hsame hall
  exact ⟨heq, hsame' (heq ▸ hall)⟩

end MatchingEngine

end

namespace MatchingEngine

/-- After a trade at 100, asks of 10 at 104 and at 120: a buy of 30 at 104, at
120 and at any price. -/
theorem aggressive_price_three_ways :
    ∃ ms, (((new (30 : ℚ)).run threeAsks).1.submitOrder (Order.make 5 .buy .market 0 30)).2 =
        .trades ms ∧
      [⟨5, 2, 104, 10, 7⟩] <+: ([⟨5, 2, 104, 10, 7⟩, ⟨5, 3, 120, 10, 8⟩] : List (Trade ℚ)) ∧
      [⟨5, 2, 104, 10, 7⟩, ⟨5, 3, 120, 10, 8⟩] <+: ms := by
  have hp : (Side.buy).AsAggressive (104 : ℚ) 120 := show (104 : ℚ) ≤ 120 by norm_num
  have hts : (((new (30 : ℚ)).run threeAsks).1.submitOrder (Order.make 5 .buy .limit 104 30)).2 =
      .trades [⟨5, 2, 104, 10, 7⟩] := by decide +kernel
  have hts' : (((new (30 : ℚ)).run threeAsks).1.submitOrder (Order.make 5 .buy .limit 120 30)).2 =
      .trades [⟨5, 2, 104, 10, 7⟩, ⟨5, 3, 120, 10, 8⟩] := by decide +kernel
  obtain ⟨ms, hms, hextends, hextends', -⟩ := aggressive_price_extends_trades _ hp hts hts' 0
  exact ⟨ms, hms, hextends, hextends'⟩

end MatchingEngine

end TradingSystem
