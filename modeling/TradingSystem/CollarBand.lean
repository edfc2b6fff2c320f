import Mathlib.Tactic.Linarith
import TradingSystem.RestingOrders

/-!
# What the collar bounds

The collar is checked once, before a loop that walks several levels and
overwrites the reference after each fill. It bounds the trades all the same:
no trade is past the order's own limit, and an accepted limit is in the band.

The band is the reference times a fraction. Around a negative reference its
ends change places, and no price is between them any more.
-/

namespace TradingSystem

section
variable {P : Type}

/-- The trade price is no worse than the order's limit. -/
def Order.within [LE P] (o : Order P) (tradePrice : P) : Prop :=
  match o.side with
  | .buy => tradePrice ≤ o.price
  | .sell => o.price ≤ tradePrice

/-- Every order is on the level of its price. -/
def Levels.Keyed (m : Levels P) : Prop := ∀ l ∈ m, ∀ o ∈ l.2, o.price = l.1

theorem Levels.Keyed.fill {s : MatchState P} {p : P} {front : Order P} {queue : List (Order P)}
    {rest : Levels P} (h : Levels.Keyed ((p, front :: queue) :: rest)) :
    Levels.Keyed (s.fill p front queue rest).opposite := by
  have hfirst : ∀ o ∈ front :: queue, o.price = p := h _ List.mem_cons_self
  intro l hl o ho
  rcases mem_fill_opposite hl with hl | ⟨hp, -, hdq⟩
  · exact h l (List.mem_cons_of_mem _ hl) o ho
  · rw [hp]
    rcases hdq o ho with ho | ho
    · rw [(mem_remainder ho).1]
      exact hfirst front List.mem_cons_self
    · exact hfirst o (List.mem_cons_of_mem _ ho)

namespace MatchingEngine

variable [LT P] [DecidableLT P] {e : MatchingEngine P} {o : Order P}

/-- Trades are at prices of levels that did not stop the loop. -/
theorem matched_trade_prices (h : (e.book.levels o.side.opposite).Keyed) {t : Trade P}
    (ht : t ∈ (e.matched o).trades) :
    o.stopsAt t.price = false ∧ ∃ l ∈ e.book.levels o.side.opposite, l.1 = t.price := by
  suffices hall : (e.matched o).opposite.Keyed ∧
      (∀ l ∈ (e.matched o).opposite, ∃ l' ∈ e.book.levels o.side.opposite, l'.1 = l.1) ∧
      (∀ p, (e.matched o).incoming.stopsAt p = o.stopsAt p) ∧
      ∀ t ∈ (e.matched o).trades, o.stopsAt t.price = false ∧
        ∃ l ∈ e.book.levels o.side.opposite, l.1 = t.price from hall.2.2.2 t ht
  refine matched_invariant (I := fun s => s.opposite.Keyed ∧
    (∀ l ∈ s.opposite, ∃ l' ∈ e.book.levels o.side.opposite, l'.1 = l.1) ∧
    (∀ p, s.incoming.stopsAt p = o.stopsAt p) ∧
    ∀ t ∈ s.trades, o.stopsAt t.price = false ∧
      ∃ l ∈ e.book.levels o.side.opposite, l.1 = t.price) ?_
    ⟨h, fun l hl => ⟨l, hl, rfl⟩, fun _ => rfl, by simp [enter]⟩
  rintro s u ⟨hkeyed, hkeys, hstops, htrades⟩ hstep
  have hkeys' : ∀ l ∈ u.opposite, ∃ l' ∈ e.book.levels o.side.opposite, l'.1 = l.1 := by
    intro l hl
    obtain ⟨l', hl', heq⟩ := matchStep_keys hstep hl
    obtain ⟨l'', hl'', heq'⟩ := hkeys l' hl'
    exact ⟨l'', hl'', heq'.trans heq⟩
  obtain ⟨p, front, queue, rest, hopp, -, hgo, rfl⟩ := matchStep_some.mp hstep
  rw [hopp] at hkeyed hkeys
  refine ⟨hkeyed.fill, hkeys', hstops, fun t ht => ?_⟩
  rcases List.mem_append.mp ht with ht | ht
  · exact htrades t ht
  · have hprice : t.price = p := by
      rw [List.mem_singleton.mp ht]
      exact hkeyed _ List.mem_cons_self front List.mem_cons_self
    rw [hprice, ← hstops p]
    exact ⟨hgo, hkeys _ List.mem_cons_self⟩

variable [PriceArith P]

theorem accepted_iff (hl : o.type = .limit) {ref : P} (hr : e.lastPrice = some ref) :
    (e.collarCheck o).accepted = true ↔
      ¬ e.collar.hi ref < o.price ∧ ¬ o.price < e.collar.lo ref := by
  simp only [collarCheck, hl, hr]
  exact e.collar.check_accepted_iff o.price ref

theorem rejection_iff :
    (∃ r, (e.submitOrder o).2 = .rejection r) ↔ (e.collarCheck o).accepted = false := by
  cases ha : (e.collarCheck o).accepted with
  | false => simp [submitOrder_rejected ha]
  | true => simp [submitOrder_accepted ha]

theorem trades_iff :
    (∃ ts, (e.submitOrder o).2 = .trades ts) ↔ (e.collarCheck o).accepted = true := by
  cases ha : (e.collarCheck o).accepted with
  | false => simp [submitOrder_rejected ha]
  | true => simp [submitOrder_accepted ha]

/-- No call touches the collar. -/
theorem run_collar (band : P) (calls : List (Call P)) :
    ((new band).run calls).1.collar = .new band :=
  run_invariant (I := fun e => e.collar = .new band) (fun _ _ h _ => h)
    (fun _ _ h _ => by rw [rest_collar]; exact h) (fun _ _ h => h) rfl calls

end MatchingEngine

end

/-! ## Trades and remainders of an accepted order -/

section
variable {P : Type} [LinearOrder P] {e : MatchingEngine P} {o : Order P}

namespace MatchingEngine

/-- A price that does not stop a limit order is within its limit. -/
theorem within_of_open (hl : o.type = .limit) {p : P} (hgo : o.stopsAt p = false) :
    o.within p := by
  have hnot : ¬ better o.side.opposite o.price p := by
    intro hb
    rw [Order.stopsAt_iff.mpr ⟨hl, hb⟩] at hgo
    cases hgo
  unfold Order.within
  cases hs : o.side with
  | buy => exact not_lt.mp (by simpa [hs, better, Side.opposite] using hnot)
  | sell => exact not_lt.mp (by simpa [hs, better, Side.opposite] using hnot)

theorem matched_within (hwf : e.book.WF) (hl : o.type = .limit) {t : Trade P}
    (ht : t ∈ (e.matched o).trades) : o.within t.price :=
  within_of_open hl (matched_trade_prices (hwf o.side.opposite).keyed ht).1

/-- The last price after matching is the old one or that of a trade. -/
theorem matched_lastPrice_cases (e : MatchingEngine P) (o : Order P) :
    (e.matched o).lastPrice = e.lastPrice ∨
      ∃ t ∈ (e.matched o).trades, (e.matched o).lastPrice = some t.price := by
  have hlast := e.matched_lastPrice o
  cases ht : (e.matched o).trades.getLast? with
  | none => exact Or.inl (by simpa [ht] using hlast)
  | some t => exact Or.inr ⟨t, List.mem_of_getLast? ht, by simpa [ht] using hlast⟩

/-- What the collar promises of an accepted limit order `o` that found the
reference `ref`, with `lo` and `hi` the ends of the band around it. -/
structure InBand (e e' : MatchingEngine P) (o : Order P) (ts : List (Trade P)) (ref lo hi : P) :
    Prop where
  buy : o.side = .buy → ∀ t ∈ ts, t.price ≤ hi
  sell : o.side = .sell → ∀ t ∈ ts, lo ≤ t.price
  last_buy : o.side = .buy → ∃ p, e'.lastPrice = some p ∧ (p = ref ∨ p ≤ hi)
  last_sell : o.side = .sell → ∃ p, e'.lastPrice = some p ∧ (p = ref ∨ lo ≤ p)
  rested : ∀ x ∈ e'.book.orders o.side, x ∈ e.book.orders o.side ∨ lo ≤ x.price ∧ x.price ≤ hi

/-- An order on the incoming order's side was there before or is its remainder. -/
theorem mem_submit_orders {x : Order P}
    (hx : x ∈ ((e.tick.leave (e.matched o)).rest (e.matched o).incoming).book.orders o.side) :
    x ∈ e.book.orders o.side ∨ x = (e.matched o).incoming := by
  have hsame := (e.leave_orders o).1
  unfold rest at hx
  split at hx
  · have hpush := OrderBook.addRestingOrder_orders (e.tick.leave (e.matched o)).book
      (e.matched o).incoming
    rw [matched_side] at hpush
    rw [hpush] at hx
    have hperm := Levels.pushBack_perm o.side (e.matched o).incoming
      ((e.tick.leave (e.matched o)).book.levels o.side)
    rcases List.mem_cons.mp (hperm.mem_iff.mp hx) with hx | hx
    · exact Or.inr hx
    · exact Or.inl (hsame ▸ hx)
  · exact Or.inl (hsame ▸ hx)

variable [PriceArith P]

/-- The bound of the limit carries over to the band, whatever arithmetic
computed its ends. -/
theorem accepted_inBand (hwf : e.book.WF) (hl : o.type = .limit) {ref : P}
    (hr : e.lastPrice = some ref) (ha : (e.collarCheck o).accepted = true) :
    InBand e ((e.tick.leave (e.matched o)).rest (e.matched o).incoming) o (e.matched o).trades ref
      (e.collar.lo ref) (e.collar.hi ref) := by
  obtain ⟨hhi, hlo⟩ := (accepted_iff hl hr).mp ha
  rw [not_lt] at hhi hlo
  have hbuy : o.side = .buy → ∀ t ∈ (e.matched o).trades, t.price ≤ e.collar.hi ref := by
    intro hs t ht
    have hwithin := matched_within hwf hl ht
    simp only [Order.within, hs] at hwithin
    exact hwithin.trans hhi
  have hsell : o.side = .sell → ∀ t ∈ (e.matched o).trades, e.collar.lo ref ≤ t.price := by
    intro hs t ht
    have hwithin := matched_within hwf hl ht
    simp only [Order.within, hs] at hwithin
    exact hlo.trans hwithin
  have hlast : ∃ p, ((e.tick.leave (e.matched o)).rest (e.matched o).incoming).lastPrice = some p ∧
      (p = ref ∨ ∃ t ∈ (e.matched o).trades, p = t.price) := by
    rw [rest_lastPrice]
    rcases e.matched_lastPrice_cases o with hsame | ⟨t, ht, hset⟩
    · exact ⟨ref, hsame.trans hr, Or.inl rfl⟩
    · exact ⟨t.price, hset, Or.inr ⟨t, ht, rfl⟩⟩
  obtain ⟨p, hp, hfrom⟩ := hlast
  refine ⟨hbuy, hsell, fun hs => ⟨p, hp, ?_⟩, fun hs => ⟨p, hp, ?_⟩, fun x hx => ?_⟩
  · rcases hfrom with hfrom | ⟨t, ht, rfl⟩
    · exact Or.inl hfrom
    · exact Or.inr (hbuy hs t ht)
  · rcases hfrom with hfrom | ⟨t, ht, rfl⟩
    · exact Or.inl hfrom
    · exact Or.inr (hsell hs t ht)
  · rcases mem_submit_orders hx with hx | rfl
    · exact Or.inl hx
    · rw [matched_price]
      exact Or.inr ⟨hlo, hhi⟩

end MatchingEngine

end

/-! ## Exact arithmetic -/

theorem PriceCollar.hi_new (band ref : ℚ) :
    (PriceCollar.new band).hi ref = ref + ref * (band / 100) := rfl

theorem PriceCollar.lo_new (band ref : ℚ) :
    (PriceCollar.new band).lo ref = ref - ref * (band / 100) := rfl

namespace MatchingEngine

/-- **What an accepted limit order can do to the last price.** After any calls,
with `r` the last price: across all levels a buy walks it trades at no more
than the upper end of the band around `r`, a sell at no less than the lower
end, the new last price is `r` or bounded the same way, and what rests is
priced inside the band. -/
theorem collar_bounds_trades (band : ℚ) (calls : List (Call ℚ)) {r : ℚ}
    (hr : ((new band).run calls).1.lastPrice = some r) {o : Order ℚ} (hl : o.type = .limit)
    {ts : List (Trade ℚ)} (hts : (((new band).run calls).1.submitOrder o).2 = .trades ts) :
    InBand ((new band).run calls).1 (((new band).run calls).1.submitOrder o).1 o ts r
      (r - r * (band / 100)) (r + r * (band / 100)) := by
  have ha := trades_iff.mp ⟨ts, hts⟩
  have hband := accepted_inBand (run_WF band calls) hl hr ha
  rw [run_collar, PriceCollar.hi_new, PriceCollar.lo_new] at hband
  rw [submitOrder_accepted ha] at hts ⊢
  obtain rfl := SubmitResult.trades.inj hts
  exact hband

/-- Sells at 100, 104 and 120, and a buy that takes the first of them. -/
def threeAsks : List (Call ℚ) :=
  [.submit (Order.make 1 .sell .limit 100 10), .submit (Order.make 2 .sell .limit 104 10),
    .submit (Order.make 3 .sell .limit 120 10), .submit (Order.make 4 .buy .limit 100 10)]

/-- A buy of 30 at 110 takes the sell at 104 and rests 20 below the one at 120. -/
theorem collar_bounds_trades_two_levels :
    ((new (10 : ℚ)).run threeAsks).1.lastPrice = some 100 ∧
    InBand ((new (10 : ℚ)).run threeAsks).1
      (((new (10 : ℚ)).run threeAsks).1.submitOrder (Order.make 5 .buy .limit 110 30)).1
      (Order.make 5 .buy .limit 110 30) [⟨5, 2, 104, 10, 7⟩] 100 (100 - 100 * (10 / 100))
      (100 + 100 * (10 / 100)) := by
  have hr : ((new (10 : ℚ)).run threeAsks).1.lastPrice = some 100 := by decide +kernel
  have hts : (((new (10 : ℚ)).run threeAsks).1.submitOrder (Order.make 5 .buy .limit 110 30)).2 =
      .trades [⟨5, 2, 104, 10, 7⟩] := by decide +kernel
  exact ⟨hr, collar_bounds_trades 10 threeAsks hr rfl hts⟩

/-! ## The reference and its band -/

section
variable {P : Type} [LinearOrder P]

/-- The levels of the book and the last price are of one kind. -/
structure Quotes (good : P → Prop) (e : MatchingEngine P) : Prop where
  levels : ∀ s, ∀ l ∈ e.book.levels s, good l.1
  last : ∀ p, e.lastPrice = some p → good p

variable {good : P → Prop} {e : MatchingEngine P}

/-- The last price comes from the levels an order trades with. -/
theorem Quotes.submit (h : Quotes good e) (hwf : e.book.WF) {o : Order P}
    (ho : o.type = .limit → good o.price) :
    Quotes good ((e.tick.leave (e.matched o)).rest (e.matched o).incoming) := by
  have hleave : ∀ s, ∀ l ∈ (e.tick.leave (e.matched o)).book.levels s, good l.1 := by
    refine leave_sides (Q := fun _ m => ∀ l ∈ m, good l.1) (h.levels o.side) fun l hl => ?_
    obtain ⟨l', hl', heq⟩ := matched_keys e o hl
    exact heq ▸ h.levels _ l' hl'
  constructor
  · refine rest_sides (Q := fun _ m => ∀ l ∈ m, good l.1) hleave fun _ hl l hmem => ?_
    rcases OrderBook.pushBack_keys hmem with hkey | ⟨dq, hmem⟩
    · rw [hkey, matched_price]
      exact ho (by simpa using hl)
    · exact hleave _ (l.1, dq) hmem
  · intro p hp
    rw [rest_lastPrice] at hp
    rcases e.matched_lastPrice_cases o with hsame | ⟨t, ht, hset⟩
    · exact h.last p (hsame.symm.trans hp)
    · obtain ⟨-, l, hl, heq⟩ := matched_trade_prices (hwf o.side.opposite).keyed ht
      obtain rfl := Option.some.inj (hset.symm.trans hp)
      exact heq ▸ h.levels _ l hl

theorem Quotes.cancel (h : Quotes good e) (id : UInt64) : Quotes good (e.cancelOrder id).1 := by
  refine ⟨cancelOrder_sides (Q := fun _ m => ∀ l ∈ m, good l.1) h.levels fun s p l hl => ?_, h.last⟩
  obtain ⟨dq, hl⟩ := OrderBook.eraseOrder_keys hl
  exact h.levels s (l.1, dq) hl

variable [PriceArith P]

theorem Quotes.run {calls : List (Call P)} (h : Quotes good e) (hwf : e.book.WF)
    (hcalls : ∀ o, .submit o ∈ calls → o.type = .limit → good o.price) :
    Quotes good (e.run calls).1 := by
  induction calls generalizing e with
  | nil => exact h
  | cons c calls ih =>
    have hrest : ∀ o, .submit o ∈ calls → o.type = .limit → good o.price :=
      fun o ho => hcalls o (List.mem_cons_of_mem c ho)
    cases c with
    | cancel id => exact ih (h.cancel id) (cancelOrder_WF hwf id) hrest
    | submit o =>
      simp only [run_cons, call]
      cases ha : (e.collarCheck o).accepted with
      | false =>
        rw [submitOrder_rejected ha]
        exact ih ⟨h.levels, h.last⟩ hwf hrest
      | true =>
        rw [submitOrder_accepted ha]
        exact ih (h.submit hwf (hcalls o List.mem_cons_self)) (submit_WF hwf o) hrest

end

/-- Where no limit order has a negative price, no reference is negative. -/
theorem run_reference_nonneg {band : ℚ} {calls : List (Call ℚ)}
    (hcalls : ∀ o, .submit o ∈ calls → o.type = .limit → 0 ≤ o.price) {r : ℚ}
    (hr : ((new band).run calls).1.lastPrice = some r) : 0 ≤ r := by
  have hnew : Quotes (0 ≤ ·) (new band) := by
    refine ⟨fun s l hl => ?_, fun p hp => by cases hp⟩
    cases s <;> cases hl
  exact (hnew.run OrderBook.WF.empty hcalls).last r hr

/-- Around a negative reference the lower end of the band is above the upper
one, and every limit order is past one of them. -/
theorem negative_reference_rejects {e : MatchingEngine ℚ} {band r : ℚ} (hband : 0 < band)
    (hcollar : e.collar = .new band) (hr : e.lastPrice = some r) (hneg : r < 0) {o : Order ℚ}
    (hl : o.type = .limit) : (e.collarCheck o).accepted = false := by
  have hends : r + r * (band / 100) < r - r * (band / 100) := by
    have := mul_neg_of_neg_of_pos hneg (div_pos hband (by norm_num : (0 : ℚ) < 100))
    linarith
  rw [← Bool.not_eq_true, accepted_iff hl hr, hcollar, PriceCollar.hi_new, PriceCollar.lo_new]
  rintro ⟨hhi, hlo⟩
  exact absurd (hends.trans_le (not_lt.mp hlo)) hhi

/-- **When the reference price itself is accepted.** With a band of at least
zero percent, after any calls, a limit order at the last price `r` is accepted
exactly if `r` is not negative or the band is zero. No reference is negative
as long as no limit order is. -/
theorem reference_accepted_iff {band : ℚ} (hband : 0 ≤ band) (calls : List (Call ℚ)) {r : ℚ}
    (hr : ((new band).run calls).1.lastPrice = some r) {o : Order ℚ} (hl : o.type = .limit)
    (hp : o.price = r) :
    ((∃ ts, (((new band).run calls).1.submitOrder o).2 = .trades ts) ↔ 0 ≤ r ∨ band = 0) ∧
      ((∀ o, .submit o ∈ calls → o.type = .limit → 0 ≤ o.price) → 0 ≤ r) := by
  refine ⟨?_, fun hcalls => run_reference_nonneg hcalls hr⟩
  rw [trades_iff]
  constructor
  · intro ha
    by_contra hnot
    rw [not_or, not_le] at hnot
    have hpos : 0 < band := lt_of_le_of_ne hband (Ne.symm hnot.2)
    rw [negative_reference_rejects hpos (run_collar band calls) hr hnot.1 hl] at ha
    cases ha
  · intro hcond
    have hwidth : 0 ≤ r * (band / 100) := by
      rcases hcond with hnonneg | rfl
      · exact mul_nonneg hnonneg (div_nonneg hband (by norm_num))
      · simp
    rw [accepted_iff hl hr, run_collar, PriceCollar.hi_new, PriceCollar.lo_new, hp]
    constructor
    · linarith
    · linarith

theorem reference_accepted_at_hundred :
    ∃ ts, (((new (10 : ℚ)).run threeAsks).1.submitOrder (Order.make 5 .sell .limit 100 10)).2 =
      .trades ts :=
  (reference_accepted_iff (by norm_num) threeAsks (r := 100) (by decide +kernel) rfl rfl).1.mpr
    (Or.inl (by norm_num))

/-- A trade at -100: with a band of ten percent its ends are -110 and -90, and
a buy at -100 counts as too high. -/
theorem negative_reference_locks_out :
    ((new (10 : ℚ)).run [.submit (Order.make 1 .sell .limit (-100) 10),
      .submit (Order.make 2 .buy .limit (-100) 10)]).1.lastPrice = some (-100) ∧
    (((new (10 : ℚ)).run [.submit (Order.make 1 .sell .limit (-100) 10),
      .submit (Order.make 2 .buy .limit (-100) 10)]).1.submitOrder
        (Order.make 3 .buy .limit (-100) 10)).2 = .rejection ⟨3, .priceTooHigh⟩ := by
  decide +kernel

end MatchingEngine

end TradingSystem
