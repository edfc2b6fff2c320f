import TradingSystem.CancelIndex
import TradingSystem.NaNPrices

/-!
# Cancels and NaN

An order with a NaN rests on the level at which the search of the map happens
to end, and its index entry has a NaN for a price. A later search with that
entry may end at another level; then the cancel returns true and removes
nothing. Where no LIMIT order comes with a NaN the book is in order, and
cancels keep their promises as they do over a linear order.
-/

namespace TradingSystem

namespace MatchingEngine

variable {P : Type} [LinearOrder P] [PriceArith P] [PriceArith (Price P)]

/-- **When every resting order can be cancelled.** Along a run from a fresh
engine all states honour cancels exactly if no remainder is ever put to rest
while an order with the same id is resting: over a linear order for any calls,
over prices with a NaN if no LIMIT order of the run has it. Later calls, which
must not bring a cancelled order back, are any. -/
theorem cancellable_iff_fresh :
    (∀ (band : P) (calls : List (Call P)),
      (∀ pre, pre <+: calls → ((new band).run pre).1.Cancellable) ↔
        ∀ pre c, pre ++ [c] <+: calls → ((new band).run pre).1.Fresh c) ∧
    ∀ (band : Price P) (calls : List (Call (Price P))), (∀ c ∈ calls, c.Priced) →
      ((∀ pre, pre <+: calls → ((new band).run pre).1.Cancellable) ↔
        ∀ pre c, pre ++ [c] <+: calls → ((new band).run pre).1.Fresh c) := by
  constructor
  · intro band calls
    exact cancellable_iff_of_finds band calls fun pre _ => (run_WF band pre).finds
  · intro band calls hcalls
    refine cancellable_iff_of_finds band calls fun pre hp => ?_
    exact (run_proper .empty fun c hc => hcalls c (hp.subset hc)).wf.finds

/-- Two sells at numbers, under two ids. -/
def sellTwice : List (Call (Price ℚ)) :=
  [.submit (Order.make 1 .sell .limit (.num 100) 10),
    .submit (Order.make 2 .sell .limit (.num 101) 10)]

theorem cancellable_iff_fresh_two_ids :
    ((new (.num 10 : Price ℚ)).run sellTwice).1.Cancellable := by
  refine ((cancellable_iff_fresh (P := ℚ)).2 (.num 10) sellTwice ?_).mpr ?_ sellTwice
    (List.prefix_refl _)
  · simp [sellTwice, Call.Priced, Order.make]
  · intro pre c hp
    rcases pre with _ | ⟨x, _ | ⟨y, pre⟩⟩
    · obtain ⟨rfl, -⟩ := List.cons_prefix_cons.mp hp
      exact fresh_of_absent fun r hr => by cases hr
    · obtain ⟨rfl, hrest⟩ := List.cons_prefix_cons.mp hp
      obtain ⟨rfl, -⟩ := List.cons_prefix_cons.mp hrest
      exact fresh_of_absent (by decide +kernel)
    · have hlen := hp.length_le
      simp [sellTwice] at hlen

/-- **No dangling entry.** After any calls, whatever ids they use, over a linear
order, or over prices with a NaN if no LIMIT order has it. -/
theorem cancel_index_no_dangling :
    (∀ (band : P) (calls : List (Call P)), ((new band).run calls).1.NoDangling) ∧
    ∀ (band : Price P) (calls : List (Call (Price P))), (∀ c ∈ calls, c.Priced) →
      ((new band).run calls).1.NoDangling := by
  constructor
  · intro band calls
    exact Anchored.noDangling (run_WF band calls) (run_anchored band calls)
  · intro band calls hcalls
    exact Anchored.noDangling (run_proper .empty hcalls).wf (run_anchored band calls)

/-- Two buys with the same id at different prices: the entry is the second's. -/
def sameIdTwice : List (Call (Price ℚ)) :=
  [.submit (Order.make 1 .buy .limit (.num 100) 10),
    .submit (Order.make 1 .buy .limit (.num 99) 5)]

theorem cancel_index_no_dangling_same_id :
    RemovesOne 1 ((new (.num 10 : Price ℚ)).run sameIdTwice).1
        (((new (.num 10 : Price ℚ)).run sameIdTwice).1.cancelOrder 1).1 ∧
      (((new (.num 10 : Price ℚ)).run sameIdTwice).1.cancelOrder 1).1.book.levels .buy =
        [(.num 100, [{ Order.make 1 .buy .limit (.num 100) 10 with
          remainingQuantity := 10, timestamp := 1 }])] := by
  have hpriced : ∀ c ∈ sameIdTwice, c.Priced := by
    simp [sameIdTwice, Call.Priced, Order.make]
  exact ⟨((cancel_index_no_dangling (P := ℚ)).2 (.num 10) sameIdTwice hpriced).removes 1
    (by decide +kernel), by decide +kernel⟩

/-- Three sells under three ids. The second, at NaN, joins the level of the
first; the third makes a level before it. -/
def nanBetween : List (Call (Price ℚ)) :=
  [.submit (Order.make 1 .sell .limit (.num 100) 10), .submit (Order.make 2 .sell .limit .nan 7),
    .submit (Order.make 3 .sell .limit (.num 50) 1)]

/-- The entry of the second names a level that does not exist. Its cancel
searches the first level, returns true, and leaves all three orders. -/
theorem nan_entry_dangles :
    ¬ ((new (.num 10 : Price ℚ)).run nanBetween).1.NoDangling ∧
      (((new (.num 10 : Price ℚ)).run nanBetween).1.cancelOrder 2).2 = true ∧
      (((new (.num 10 : Price ℚ)).run nanBetween).1.cancelOrder 2).1.book.levels .sell =
        ((new (.num 10 : Price ℚ)).run nanBetween).1.book.levels .sell := by
  refine ⟨fun hno => ?_, by decide +kernel, by decide +kernel⟩
  obtain ⟨dq, hdq, -⟩ := hno.level 2 ⟨.sell, .nan⟩ (by decide +kernel)
  have hkeys : ∀ l ∈ ((new (.num 10 : Price ℚ)).run nanBetween).1.book.levels .sell,
      l.1 ≠ .nan := by decide +kernel
  exact hkeys _ hdq rfl

end MatchingEngine

end TradingSystem
