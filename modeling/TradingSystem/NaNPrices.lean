import TradingSystem.CollarBand
import TradingSystem.Conservation

/-!
# Orders whose price is NaN

`wire_to_order` copies the eight bytes of a price unchecked, so an order may
come with a NaN. All checks of the engine are written as refusals: break if
the limit is passed, reject if the price is above or below the band. A NaN is
neither above nor below anything and passes every one of them.

The engine is the one of the other modules, over prices with a NaN; the
arithmetic of the collar may be anything and may produce NaN as well.
-/

namespace TradingSystem

open OrderedMap

/-- A `double`: a value of the ordered type `P`, or NaN. -/
inductive Price (P : Type) where
  | nan
  | num (p : P)
  deriving DecidableEq, Repr

namespace Price

variable {P : Type}

/-- A comparison that involves NaN is false. -/
def compares (r : P → P → Prop) : Price P → Price P → Prop
  | .num a, .num b => r a b
  | _, _ => False

instance (r : P → P → Prop) [DecidableRel r] : DecidableRel (compares r) := fun a b =>
  match a, b with
  | .num a, .num b => inferInstanceAs (Decidable (r a b))
  | .nan, _ => isFalse id
  | .num _, .nan => isFalse id

instance [LT P] : LT (Price P) := ⟨compares (· < ·)⟩

instance [LE P] : LE (Price P) := ⟨compares (· ≤ ·)⟩

instance [LT P] [DecidableLT P] : DecidableLT (Price P) :=
  inferInstanceAs (DecidableRel (compares (· < ·)))

instance [LE P] [DecidableLE P] : DecidableLE (Price P) :=
  inferInstanceAs (DecidableRel (compares (· ≤ ·)))

theorem num_lt_num [LT P] {a b : P} : num a < num b ↔ a < b := Iff.rfl

@[simp] theorem not_nan_lt [LT P] (a : Price P) : ¬ nan < a := by
  cases a <;> exact id

@[simp] theorem not_lt_nan [LT P] (a : Price P) : ¬ a < nan := by
  cases a <;> exact id

@[simp] theorem not_nan_le [LE P] (a : Price P) : ¬ nan ≤ a := by
  cases a <;> exact id

@[simp] theorem not_le_nan [LE P] (a : Price P) : ¬ a ≤ nan := by
  cases a <;> exact id

variable [LinearOrder P]

theorem le_of_not_lt {a b : Price P} (ha : a ≠ nan) (hb : b ≠ nan) (h : ¬ b < a) : a ≤ b := by
  cases a with
  | nan => exact absurd rfl ha
  | num a =>
    cases b with
    | nan => exact absurd rfl hb
    | num b => exact not_lt.mp h

theorem eq_of_not_lt {a b : Price P} (ha : a ≠ nan) (hb : b ≠ nan) (h : ¬ a < b) (h' : ¬ b < a) :
    a = b := by
  cases a with
  | nan => exact absurd rfl ha
  | num a =>
    cases b with
    | nan => exact absurd rfl hb
    | num b => exact congrArg num (le_antisymm (not_lt.mp h') (not_lt.mp h))

theorem eq_of_not_better {s : Side} {a b : Price P} (ha : a ≠ nan) (hb : b ≠ nan)
    (h : ¬ better s a b) (h' : ¬ better s b a) : a = b := by
  cases s with
  | buy => exact eq_of_not_lt ha hb h' h
  | sell => exact eq_of_not_lt ha hb h h'

end Price

variable {P : Type}

namespace MatchingEngine

variable [LinearOrder P] [PriceArith (Price P)]

/-- What limit and collar promise for a LIMIT order. -/
structure Protects (e : MatchingEngine (Price P)) (o : Order (Price P)) : Prop where
  limit : ∀ t ∈ (e.call (.submit o)).2.trades, o.within t.price
  collar : ∀ ref, e.lastPrice = some ref →
    ¬ (e.collar.lo ref ≤ o.price ∧ o.price ≤ e.collar.hi ref) →
    ∃ r, (e.submitOrder o).2 = .rejection r

/-- A NaN does no harm while there was no trade and there is nothing to trade
with. Any other price is safe unless it passes a band with a NaN end. -/
def Guards (e : MatchingEngine (Price P)) (o : Order (Price P)) : Prop :=
  match o.price with
  | .nan => e.lastPrice = none ∧ (o.quantity = 0 ∨ e.book.levels o.side.opposite = [])
  | .num _ => ∀ ref, e.lastPrice = some ref →
    e.collar.lo ref ≠ .nan ∧ e.collar.hi ref ≠ .nan ∨
      e.collar.hi ref < o.price ∨ o.price < e.collar.lo ref

end MatchingEngine

/-! ## Books without NaN -/

instance [LinearOrder P] : IsStrictOrder (Price P) (· < ·) where
  irrefl a h := by
    cases a with
    | nan => exact h
    | num a => exact lt_irrefl a (Price.num_lt_num.mp h)
  trans a b c hab hbc := by
    cases a with
    | nan => exact absurd hab (Price.not_nan_lt b)
    | num a =>
      cases b with
      | nan => exact absurd hab (Price.not_lt_nan _)
      | num b =>
        cases c with
        | nan => exact absurd hbc (Price.not_lt_nan _)
        | num c =>
          rw [Price.num_lt_num] at hab hbc ⊢
          exact hab.trans hbc

/-- A well-formed side without a NaN. -/
structure Levels.Proper [LT P] (s : Side) (m : Levels (Price P)) : Prop extends Levels.WF s m where
  number : ∀ l ∈ m, l.1 ≠ .nan

namespace Levels.Proper

variable [LinearOrder P] {s : Side} {m : Levels (Price P)}

theorem fill {t : MatchState (Price P)} {p : Price P} {front : Order (Price P)}
    {queue : List (Order (Price P))} {rest : Levels (Price P)}
    (h : Levels.Proper s ((p, front :: queue) :: rest)) :
    Levels.Proper s (t.fill p front queue rest).opposite := by
  refine ⟨WF_fill h.toWF, fun l hl => ?_⟩
  rcases mem_fill_opposite hl with hl | ⟨hp, -⟩
  · exact h.number l (List.mem_cons_of_mem _ hl)
  · rw [hp]
    exact h.number _ List.mem_cons_self

theorem pushBack (h : Levels.Proper s m) {o : Order (Price P)} (hr : o.Rests s)
    (ho : o.price ≠ .nan) : Levels.Proper s (OrderBook.pushBack s o m) := by
  constructor
  · exact h.toWF.pushBack hr fun l hl hb ha => Price.eq_of_not_better (h.number l hl) ho hb ha
  · intro l hl
    rcases OrderBook.pushBack_keys hl with hkey | ⟨dq, hm⟩
    · rw [hkey]
      exact ho
    · exact h.number (l.1, dq) hm

theorem eraseOrder (h : Levels.Proper s m) (p : Price P) (id : UInt64) :
    Levels.Proper s (OrderBook.eraseOrder s p id m) := by
  refine ⟨h.toWF.eraseOrder p id, fun l hl => ?_⟩
  obtain ⟨dq, hm⟩ := OrderBook.eraseOrder_keys hl
  exact h.number (l.1, dq) hm

end Levels.Proper

def OrderBook.Proper [LT P] (b : OrderBook (Price P)) : Prop := ∀ s, Levels.Proper s (b.levels s)

theorem OrderBook.Proper.empty [LT P] : (OrderBook.empty : OrderBook (Price P)).Proper := by
  intro s
  cases s <;> exact ⟨Levels.WF.nil _, fun l hl => by cases hl⟩

theorem OrderBook.Proper.wf [LT P] {b : OrderBook (Price P)} (h : b.Proper) : b.WF :=
  fun s => (h s).toWF

/-- A LIMIT order comes with a proper price. The price of a MARKET order is never read. -/
def Call.Priced : Call (Price P) → Prop
  | .submit o => o.type = .limit → o.price ≠ .nan
  | .cancel _ => True

namespace MatchingEngine

variable [LinearOrder P] {e : MatchingEngine (Price P)}

theorem matched_proper (h : e.book.Proper) (o : Order (Price P)) :
    Levels.Proper o.side.opposite (e.matched o).opposite ∧
      ∀ t ∈ (e.matched o).trades, t.price ≠ .nan ∧ o.stopsAt t.price = false := by
  constructor
  · refine matched_invariant (I := fun s => Levels.Proper o.side.opposite s.opposite) ?_
      (h o.side.opposite)
    intro s t hs hstep
    obtain ⟨p, front, queue, rest, hopp, -, -, rfl⟩ := matchStep_some.mp hstep
    exact Levels.Proper.fill (hopp ▸ hs)
  · intro t ht
    obtain ⟨hgo, l, hl, hprice⟩ := matched_trade_prices (h o.side.opposite).keyed ht
    exact ⟨hprice ▸ (h o.side.opposite).number l hl, hgo⟩

theorem submit_proper (h : e.book.Proper) {o : Order (Price P)}
    (ho : o.type = .limit → o.price ≠ .nan) :
    ((e.tick.leave (e.matched o)).rest (e.matched o).incoming).book.Proper := by
  have hleave : (e.tick.leave (e.matched o)).book.Proper :=
    leave_sides (h o.side) (matched_proper h o).1
  refine rest_sides hleave fun hpos ht => (hleave _).pushBack ?_ (by simpa using ho (by simpa using ht))
  rw [matched_side]
  exact e.matched_rests o hpos (by simpa using ht)

theorem cancelOrder_proper (h : e.book.Proper) (id : UInt64) :
    (e.cancelOrder id).1.book.Proper :=
  cancelOrder_sides h fun s p => (h s).eraseOrder p id

/-! ## What protects and what does not -/

/-- At a proper price a trade is within the limit. -/
theorem within_of_not_stops {o : Order (Price P)} (hl : o.type = .limit) (ho : o.price ≠ .nan)
    {p : Price P} (hp : p ≠ .nan) (hgo : o.stopsAt p = false) : o.within p := by
  have hnot : ¬ better o.side.opposite o.price p := by
    intro hb
    rw [Order.stopsAt_iff.mpr ⟨hl, hb⟩] at hgo
    cases hgo
  unfold Order.within
  cases hs : o.side with
  | buy => exact Price.le_of_not_lt hp ho (by simpa [hs, better, Side.opposite] using hnot)
  | sell => exact Price.le_of_not_lt ho hp (by simpa [hs, better, Side.opposite] using hnot)

theorem not_within_nan {o : Order (Price P)} (ho : o.price = .nan) (p : Price P) : ¬ o.within p := by
  unfold Order.within
  cases o.side <;> simp [ho]

/-- A NaN order is stopped by nothing: it trades with whatever is there. -/
theorem nan_trades (h : e.book.Proper) {o : Order (Price P)} (ho : o.price = .nan)
    (hq : o.quantity ≠ 0) (hopp : e.book.levels o.side.opposite ≠ []) :
    (e.matched o).trades ≠ [] := by
  have hstart : ∃ t, matchStep (e.tick.enter (e.stamp o)) = some t := by
    obtain ⟨l, rest, hl⟩ := List.exists_cons_of_ne_nil hopp
    obtain ⟨front, queue, hdq⟩ := List.exists_cons_of_ne_nil ((h o.side.opposite).nonempty l (by simp [hl]))
    refine ⟨_, matchStep_some.mpr ⟨l.1, front, queue, rest, ?_, ?_, ?_, rfl⟩⟩
    · rw [← hdq]
      exact hl
    · exact UInt64.pos_iff_ne_zero.mpr hq
    · simp [Order.stopsAt, enter, stamp, ho]
  obtain ⟨t, ht⟩ := hstart
  exact matchAgainst_trades_ne_nil ht

variable [PriceArith (Price P)]

theorem call_proper (h : e.book.Proper) {c : Call (Price P)} (hc : c.Priced) :
    (e.call c).1.book.Proper := by
  cases c with
  | cancel id => exact cancelOrder_proper h id
  | submit o =>
    cases ha : (e.collarCheck o).accepted with
    | false =>
      simp only [call, submitOrder_rejected ha]
      exact h
    | true =>
      simp only [call, submitOrder_accepted ha]
      exact submit_proper h hc

theorem run_proper (h : e.book.Proper) {calls : List (Call (Price P))}
    (hcalls : ∀ c ∈ calls, c.Priced) : (e.run calls).1.book.Proper := by
  induction calls generalizing e with
  | nil => exact h
  | cons c calls ih =>
    obtain ⟨hc, hrest⟩ := List.forall_mem_cons.mp hcalls
    exact ih (call_proper h hc) hrest

theorem submit_trades (e : MatchingEngine (Price P)) (o : Order (Price P)) :
    (e.call (.submit o)).2.trades =
      if (e.collarCheck o).accepted then (e.matched o).trades else [] := by
  cases ha : (e.collarCheck o).accepted with
  | false => simp [call, submitOrder_rejected ha, Reply.trades]
  | true => simp [call, submitOrder_accepted ha, Reply.trades]

theorem nan_protects_iff (h : e.book.Proper) {o : Order (Price P)} (hl : o.type = .limit)
    (ho : o.price = .nan) :
    e.Protects o ↔
      e.lastPrice = none ∧ (o.quantity = 0 ∨ e.book.levels o.side.opposite = []) := by
  constructor
  · intro hp
    cases hlast : e.lastPrice with
    | some ref =>
      -- the collar lets a NaN pass
      have haccept := (accepted_iff (e := e) hl hlast).mpr (by simp [ho])
      have hreject := rejection_iff.mp (hp.collar ref hlast (by simp [ho]))
      rw [haccept] at hreject
      cases hreject
    | none =>
      refine ⟨rfl, ?_⟩
      by_contra hsome
      rw [not_or] at hsome
      obtain ⟨t, ht⟩ := List.exists_mem_of_ne_nil _ (nan_trades h ho hsome.1 hsome.2)
      have haccept : (e.collarCheck o).accepted = true := by
        simp [collarCheck, hl, hlast, PriceCollar.check]
      refine not_within_nan ho t.price (hp.limit t ?_)
      rw [submit_trades, haccept]
      exact ht
  · rintro ⟨hlast, hnone⟩
    have hdone : matchStep (e.tick.enter (e.stamp o)) = none := by
      refine matchStep_eq_none fun p dq rest hopp hpos => ?_
      rcases hnone with hq | hempty
      · exact absurd hpos (not_pos_iff_eq_zero.mpr hq)
      · have hnil : (e.tick.enter (e.stamp o)).opposite = [] := hempty
        rw [hnil] at hopp
        cases hopp
    have htrades : (e.matched o).trades = [] := by
      rw [matched, matchAgainst_done hdone]
      rfl
    refine ⟨fun t ht => ?_, fun ref hr => ?_⟩
    · rw [submit_trades, htrades, ite_self] at ht
      cases ht
    · rw [hlast] at hr
      cases hr

theorem num_protects_iff (h : e.book.Proper) {o : Order (Price P)} (hl : o.type = .limit)
    (ho : o.price ≠ .nan) :
    e.Protects o ↔ ∀ ref, e.lastPrice = some ref →
      e.collar.lo ref ≠ .nan ∧ e.collar.hi ref ≠ .nan ∨
        e.collar.hi ref < o.price ∨ o.price < e.collar.lo ref := by
  constructor
  · intro hp ref hr
    by_contra hopen
    simp only [not_or] at hopen
    obtain ⟨hends, hhi, hlo⟩ := hopen
    have haccept := (accepted_iff (e := e) hl hr).mpr ⟨hhi, hlo⟩
    have hreject := rejection_iff.mp (hp.collar ref hr ?_)
    · rw [haccept] at hreject
      cases hreject
    · rintro ⟨hle, hge⟩
      refine hends ⟨fun hnan => ?_, fun hnan => ?_⟩
      · rw [hnan] at hle
        exact Price.not_nan_le _ hle
      · rw [hnan] at hge
        exact Price.not_le_nan _ hge
  · intro hends
    refine ⟨fun t ht => ?_, fun ref hr hout => ?_⟩
    · rw [submit_trades] at ht
      split at ht
      · obtain ⟨hnum, hgo⟩ := (matched_proper h o).2 t ht
        exact within_of_not_stops hl ho hnum hgo
      · cases ht
    · rw [rejection_iff, ← Bool.not_eq_true, accepted_iff hl hr]
      rintro ⟨hhi, hlo⟩
      rcases hends ref hr with ⟨hlo', hhi'⟩ | hpast | hpast
      · exact hout ⟨Price.le_of_not_lt hlo' ho hlo, Price.le_of_not_lt ho hhi' hhi⟩
      · exact hhi hpast
      · exact hlo hpast

/-- **When limit and collar protect.** After any calls with proper prices and
for any LIMIT order, NaN or not: the trades are within the limit and a price
outside the band is rejected, exactly in the cases `Guards` lists. -/
theorem limit_protected_iff (band : Price P) (calls : List (Call (Price P)))
    (hcalls : ∀ c ∈ calls, c.Priced) (o : Order (Price P)) (hl : o.type = .limit) :
    ((new band).run calls).1.Protects o ↔ ((new band).run calls).1.Guards o := by
  have hproper : ((new band).run calls).1.book.Proper := run_proper .empty hcalls
  unfold Guards
  cases ho : o.price with
  | nan => exact nan_protects_iff hproper hl ho
  | num p =>
    have hiff := num_protects_iff hproper hl (o := o) (by simp [ho])
    rw [ho] at hiff
    exact hiff

end MatchingEngine

/-! ## A run with exact arithmetic -/

namespace Price

/-- An operation on numbers, NaN if an operand is. -/
def lift (f : ℚ → ℚ → ℚ) : Price ℚ → Price ℚ → Price ℚ
  | .num a, .num b => .num (f a b)
  | _, _ => .nan

instance : PriceArith (Price ℚ) where
  add := lift (· + ·)
  sub := lift (· - ·)
  mul := lift (· * ·)
  div := lift (· / ·)
  lit n := .num n

end Price

namespace MatchingEngine

/-- Two sells at 100 and 200, and a buy that takes the first of them. -/
def tradeAtHundred : List (Call (Price ℚ)) :=
  [.submit (Order.make 1 .sell .limit (.num 100) 10),
    .submit (Order.make 2 .sell .limit (.num 200) 10),
    .submit (Order.make 3 .buy .limit (.num 100) 10)]

/-- A buy at 150 is then rejected. -/
theorem limit_protected_at_150 :
    ((new (.num 10 : Price ℚ)).run tradeAtHundred).1.Protects
      (Order.make 4 .buy .limit (.num 150) 10) := by
  refine (limit_protected_iff (.num 10) tradeAtHundred ?_ _ rfl).mpr fun ref hr => ?_
  · simp [tradeAtHundred, Call.Priced, Order.make]
  · have hlast : ((new (.num 10 : Price ℚ)).run tradeAtHundred).1.lastPrice = some (.num 100) := by
      decide +kernel
    obtain rfl := Option.some.inj (hlast.symm.trans hr)
    exact Or.inr (Or.inl (by decide +kernel))

/-- A buy at NaN is not: it passes the band of ten percent and trades at 200. -/
theorem nan_trades_past_collar :
    ¬ ((new (.num 10 : Price ℚ)).run tradeAtHundred).1.Protects
      (Order.make 4 .buy .limit .nan 10) := by
  intro hp
  have htrade : (((new (.num 10 : Price ℚ)).run tradeAtHundred).1.call
      (.submit (Order.make 4 .buy .limit .nan 10))).2.trades = [⟨4, 2, .num 200, 10, 6⟩] := by
    decide +kernel
  exact Price.not_le_nan _ (hp.limit ⟨4, 2, .num 200, 10, 6⟩ (by simp [htrade]))

end MatchingEngine

end TradingSystem
