import TradingSystem.GreedyMatching
import TradingSystem.PriceAggression
import TradingSystem.Lib.Allocation

/-!
# Best execution

Price-time priority is a rule about the order in which resting orders are
met. What a client gets out of it: an order is filled as far as its limit and
the book allow, and no choice of resting orders would have filled the same
quantity at a better total price.
-/

namespace TradingSystem

open Allocation Reference

section
variable {P : Type}

/-- Resting orders as offers, in priority order. -/
def offers (os : List (Order P)) : List (P × ℕ) := os.map fun o => (o.price, o.left)

/-- What a list of trades costs the buyer and brings the seller. -/
def tradedValue [AddCommGroup P] (ts : List (Trade P)) : P :=
  (ts.map fun t => t.filled • t.price).sum

end

theorem toNat_min (a b : UInt64) : (min a b).toNat = min a.toNat b.toNat := by
  by_cases h : a ≤ b
  · have hmin : min a b = a := if_pos h
    rw [hmin, Nat.min_eq_left (UInt64.le_iff_toNat_le.mp h)]
  · have hmin : min a b = b := if_neg h
    rw [UInt64.le_iff_toNat_le] at h
    rw [hmin, Nat.min_eq_right (by omega)]

theorem toNat_sub_min (a b : UInt64) :
    (a - min a b).toNat = a.toNat - min a.toNat b.toNat := by
  have hle : min a b ≤ a := by
    rw [UInt64.le_iff_toNat_le, toNat_min]
    exact Nat.min_le_left _ _
  rw [UInt64.toNat_sub_of_le _ _ hle, toNat_min]

variable {P : Type} [LinearOrder P]

theorem Levels.WF.orders_sorted {s : Side} {m : Levels P} (h : Levels.WF s m) :
    (Levels.orders m).Pairwise fun a b => ¬ better s b.price a.price := by
  rw [Levels.orders, List.pairwise_flatMap]
  constructor
  · intro l hl
    apply List.pairwise_of_forall_mem_list
    intro a ha b hb
    rw [h.keyed l hl a ha, h.keyed l hl b hb]
    exact better_irrefl s _
  · refine (List.Pairwise.and_mem.mp h.sorted).imp ?_
    rintro l l' ⟨hl, hl', hbefore⟩ a ha b hb
    rw [h.keyed l hl a ha, h.keyed l' hl' b hb]
    exact asymm hbefore

omit [LinearOrder P] in
theorem fillAll_greedy [AddCommGroup P] (o : Order P) (unfilled : UInt64) (clock : ℕ)
    (q : List (Resting P)) :
    filledQuantity (fillAll o unfilled clock q).trades =
        (greedy unfilled.toNat (q.map fun r => (r.price, r.remaining.toNat))).sum ∧
      tradedValue (fillAll o unfilled clock q).trades =
        cost (q.map fun r => (r.price, r.remaining.toNat))
          (greedy unfilled.toNat (q.map fun r => (r.price, r.remaining.toNat))) := by
  induction q generalizing unfilled clock with
  | nil => exact ⟨rfl, rfl⟩
  | cons r rs ih =>
    by_cases hzero : unfilled = 0
    · subst hzero
      rw [fillAll_zero, UInt64.toNat_zero, sum_greedy, cost_greedy_zero, Nat.zero_min]
      exact ⟨rfl, rfl⟩
    · obtain ⟨hquantity, hvalue⟩ := ih (unfilled - min unfilled r.remaining) (clock + 1)
      rw [toNat_sub_min] at hquantity hvalue
      simp only [fillAll, if_neg hzero, List.map_cons, greedy, List.sum_cons, cost, filledQuantity,
        tradedValue, Trade.filled, trade, toNat_min] at hquantity hvalue ⊢
      exact ⟨by rw [hquantity], by rw [hvalue]⟩

/-- The reference's view of a resting order; when it arrived plays no part. -/
def Order.asResting (o : Order P) : Resting P :=
  ⟨o.orderId, o.side, o.price, o.remainingQuantity, 0⟩

namespace MatchingEngine

/-- The orders on the other side that are within the limit of `o`. -/
def crossed (e : MatchingEngine P) (o : Order P) : List (Order P) :=
  (e.book.orders o.side.opposite).filter fun r => !o.stopsAt r.price

theorem crossed_eq_takeWhile {e : MatchingEngine P} (hwf : e.book.WF) (o : Order P) :
    (e.book.orders o.side.opposite).takeWhile (fun r => !o.stopsAt r.price) = e.crossed o := by
  -- the side is sorted, so no price after one that stops the order is within the limit
  refine (ListLemmas.takeWhile_dropWhile_eq_filter ?_).1
  refine (hwf o.side.opposite).orders_sorted.imp fun {a b} hab hb => ?_
  simp only [Bool.not_eq_true', ← Bool.not_eq_true, Order.stopsAt_iff] at hb ⊢
  rintro ⟨hl, ha⟩
  refine hb ⟨hl, ?_⟩
  rcases trichotomous (r := better o.side.opposite) a.price b.price with h | h | h
  · exact better_trans ha h
  · exact h ▸ ha
  · exact absurd h hab

theorem matched_greedy [AddCommGroup P] {e : MatchingEngine P} (hwf : e.book.WF) (o : Order P) :
    filledQuantity (e.matched o).trades =
        (greedy o.quantity.toNat (offers (e.crossed o))).sum ∧
      tradedValue (e.matched o).trades =
        cost (offers (e.crossed o)) (greedy o.quantity.toNat (offers (e.crossed o))) := by
  let q := (e.book.orders o.side.opposite).map Order.asResting
  let clock := e.tick.nextTimestamp.toNat
  have hsame : List.Forall₂ Same q (e.book.orders o.side.opposite) := by
    rw [List.forall₂_map_left_iff]
    exact List.forall₂_same.mpr fun x _ => ⟨rfl, rfl, rfl, rfl⟩
  have hfilled : Filled (e.tick.enter (e.stamp o)) (e.matched o) clock
      (fillAll o o.quantity clock (q.takeWhile (crosses o))) (q.dropWhile (crosses o)) :=
    matchAgainst_filled ⟨rfl, rfl, rfl, rfl⟩ (hwf o.side.opposite) hsame UInt64.ofNat_toNat.symm
  have hcrossed : q.takeWhile (crosses o) = (e.crossed o).map Order.asResting := by
    have hcrosses : crosses o ∘ Order.asResting = fun r => !o.stopsAt r.price := by
      funext r
      exact crosses_eq_not_stopsAt o r.asResting
    rw [List.takeWhile_map, hcrosses, crossed_eq_takeWhile hwf]
  have htrades := hfilled.trades
  rw [hcrossed] at htrades
  have hoffers : ((e.crossed o).map Order.asResting).map
      (fun r => (r.price, r.remaining.toNat)) = offers (e.crossed o) := by
    rw [List.map_map]
    rfl
  have hgreedy := fillAll_greedy o o.quantity clock ((e.crossed o).map Order.asResting)
  rw [hoffers] at hgreedy
  rw [htrades]
  exact hgreedy

theorem offers_crossed {e : MatchingEngine P} (hwf : e.book.WF) (o : Order P) :
    ∃ beyond, offers (e.book.orders o.side.opposite) = offers (e.crossed o) ++ beyond := by
  refine ⟨offers ((e.book.orders o.side.opposite).dropWhile fun r => !o.stopsAt r.price), ?_⟩
  rw [← crossed_eq_takeWhile hwf, offers, offers, offers, ← List.map_append,
    List.takeWhile_append_dropWhile]

end MatchingEngine

/-- What an accepted order got out of the orders resting on the other side. -/
structure BestExecution (o : Order ℚ) (resting : List (Order ℚ)) (ts : List (Trade ℚ)) : Prop where
  /-- All of it, or all there is within the limit. -/
  filled : filledQuantity ts =
    min o.quantity.toNat ((resting.filter fun r => !o.stopsAt r.price).map Order.left).sum
  /-- No other way to take this quantity from the book is cheaper for a buyer. -/
  buy : o.side = .buy → ∀ ys, Fits (offers resting) ys → ys.sum = filledQuantity ts →
    tradedValue ts ≤ cost (offers resting) ys
  /-- None brings a seller more. -/
  sell : o.side = .sell → ∀ ys, Fits (offers resting) ys → ys.sum = filledQuantity ts →
    cost (offers resting) ys ≤ tradedValue ts

namespace MatchingEngine

theorem matched_best {e : MatchingEngine ℚ} (hwf : e.book.WF) (o : Order ℚ) :
    BestExecution o (e.book.orders o.side.opposite) (e.matched o).trades := by
  obtain ⟨hquantity, hvalue⟩ := matched_greedy hwf o
  obtain ⟨beyond, hbeyond⟩ := offers_crossed hwf o
  -- serving the filled quantity from the whole side never reaches the offers beyond the limit
  have hcost := cost_greedy_append o.quantity.toNat (offers (e.crossed o)) beyond
  rw [← hvalue, ← hquantity, ← hbeyond] at hcost
  have hsum : (greedy (filledQuantity (e.matched o).trades)
      (offers (e.book.orders o.side.opposite))).sum = filledQuantity (e.matched o).trades := by
    rw [sum_greedy, hbeyond, hquantity, sum_greedy, List.map_append, List.sum_append]
    omega
  have hsorted := (hwf o.side.opposite).orders_sorted
  constructor
  · rw [hquantity, sum_greedy, offers, List.map_map]
    rfl
  · intro hside ys hfits hys
    rw [← hcost]
    refine cost_greedy_le ?_ hfits (hys.trans hsum.symm)
    rw [offers, List.pairwise_map]
    rw [hside] at hsorted ⊢
    exact hsorted.imp fun h => not_lt.mp h
  · intro hside ys hfits hys
    rw [← hcost]
    refine le_cost_greedy ?_ hfits (hys.trans hsum.symm)
    rw [offers, List.pairwise_map]
    rw [hside] at hsorted ⊢
    exact hsorted.imp fun h => not_lt.mp h

/-- **Best execution.** Whatever calls came before, an accepted order trades
as much as its limit and the book allow, and of all ways to take that quantity
from the resting orders of the other side it got the best total price. -/
theorem accepted_best (band : ℚ) (calls : List (Call ℚ)) {o : Order ℚ} {ts : List (Trade ℚ)}
    (hts : (((new band).run calls).1.submitOrder o).2 = .trades ts) :
    BestExecution o (((new band).run calls).1.book.orders o.side.opposite) ts := by
  have ha := trades_iff.mp ⟨ts, hts⟩
  rw [submitOrder_accepted ha] at hts
  obtain rfl := SubmitResult.trades.inj hts
  exact matched_best (run_WF band calls) o

/-- Of the sells at 104 and 120 a market buy of 15 takes the first and half of
the second; the other way round it would pay 40 more. -/
theorem accepted_best_two_levels :
    ∃ ts, (((new (10 : ℚ)).run threeAsks).1.submitOrder (Order.make 5 .buy .market 0 15)).2 =
        .trades ts ∧ tradedValue ts = 1640 ∧
      BestExecution (Order.make 5 .buy .market 0 15)
        (((new (10 : ℚ)).run threeAsks).1.book.orders .sell) ts ∧
      cost (offers (((new (10 : ℚ)).run threeAsks).1.book.orders .sell)) [5, 10] = 1720 := by
  have hts : (((new (10 : ℚ)).run threeAsks).1.submitOrder (Order.make 5 .buy .market 0 15)).2 =
      .trades [⟨5, 2, 104, 10, 7⟩, ⟨5, 3, 120, 5, 8⟩] := by decide +kernel
  exact ⟨_, hts, by decide +kernel, accepted_best 10 threeAsks hts, by decide +kernel⟩

end MatchingEngine

end TradingSystem
