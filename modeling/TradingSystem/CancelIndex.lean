import TradingSystem.Cancellation

/-!
# No dangling entry of the cancel index

Clients may use an id more than once. The one slot an id has in
`cancel_index_` is overwritten by the newest order that comes to rest, and
erased by the fill or the cancel of any order with the id. So there may be
resting orders without an entry, but never an entry without a resting order:
whatever takes an order out of the book takes the entry of its id with it.

That much holds for any comparison of prices. That the order is on the level
the entry points to, and that a cancel finds it there, takes a book in order.
-/

namespace TradingSystem

open OrderedMap

variable {P : Type}

/-- Every entry names the side and the price of a resting order with its id. -/
abbrev Anchored (index : UInt64 → Option (CancelInfo P)) (os : List (Order P)) : Prop :=
  KeyIndex.Sound Order.orderId CancelInfo.of index os

namespace MatchingEngine

/-- `e'` is `e` without one order of this id, the first on its level, and
without the level if that was the last order on it. -/
def RemovesOne (id : UInt64) (e e' : MatchingEngine P) : Prop :=
  ∃ (s : Side) (pre : Levels P) (p : P) (before : List (Order P)) (o : Order P)
    (after : List (Order P)) (post : Levels P),
    o.orderId = id ∧ (∀ x ∈ before, x.orderId ≠ id) ∧
    e.book.levels s = pre ++ (p, before ++ o :: after) :: post ∧
    e'.book.levels s =
      pre ++ (if before ++ after = [] then post else (p, before ++ after) :: post) ∧
    e'.book.levels s.opposite = e.book.levels s.opposite ∧
    e'.book.cancelIndex = Function.update e.book.cancelIndex id none ∧
    e'.collar = e.collar ∧ e'.lastPrice = e.lastPrice ∧ e'.nextTimestamp = e.nextTimestamp

section
variable [LT P] [DecidableLT P] {e : MatchingEngine P}

/-- The level an entry points to exists and has an order with the id; a cancel
that returns true removes exactly one order with the id and nothing else; one
that returns false changes nothing. -/
structure NoDangling (e : MatchingEngine P) : Prop where
  level : ∀ id info, e.book.cancelIndex id = some info →
    ∃ dq, (info.price, dq) ∈ e.book.levels info.side ∧ ∃ o ∈ dq, o.orderId = id
  removes : ∀ id, (e.cancelOrder id).2 = true → RemovesOne id e (e.cancelOrder id).1
  unchanged : ∀ id, (e.cancelOrder id).2 = false → (e.cancelOrder id).1 = e

theorem rest_anchored (h : Anchored e.book.cancelIndex e.book.resting) (o : Order P) :
    Anchored (e.rest o).book.cancelIndex (e.rest o).book.resting := by
  unfold rest
  split
  · change Anchored (e.book.addRestingOrder o).cancelIndex (e.book.addRestingOrder o).resting
    rw [OrderBook.addRestingOrder_cancelIndex]
    exact KeyIndex.sound_stable.perm h.insert (e.book.addRestingOrder_perm o).symm
  · exact h

theorem cancelOrder_anchored (h : Anchored e.book.cancelIndex e.book.resting) (id : UInt64) :
    Anchored (e.cancelOrder id).1.book.cancelIndex (e.cancelOrder id).1.book.resting := by
  cases hi : e.book.cancelIndex id with
  | none =>
    simp only [cancelOrder, OrderBook.cancelOrder_none hi]
    exact h
  | some info =>
    change Anchored (e.book.cancelOrder id).1.cancelIndex (e.book.cancelOrder id).1.resting
    rw [OrderBook.cancelOrder_cancelIndex hi]
    rcases e.book.cancelOrder_cases id with hperm | ⟨o, rfl, hperm⟩
    · exact KeyIndex.sound_stable.perm (h.forget id) hperm.symm
    · exact KeyIndex.sound_stable.remove (KeyIndex.sound_stable.perm h hperm)

/-- In every state an entry has an order behind it. -/
theorem run_anchored [PriceArith P] (band : P) (calls : List (Call P)) :
    Anchored ((new band).run calls).1.book.cancelIndex
      ((new band).run calls).1.book.resting := by
  refine run_invariant (I := fun e => Anchored e.book.cancelIndex e.book.resting)
    (fun _ _ h _ => h) ?_ (fun _ id h => cancelOrder_anchored h id) ?_ calls
  · intro e o h _
    exact rest_anchored (leave_stable KeyIndex.sound_stable h o) _
  · intro id info hi
    cases hi

/-! ## A book in order -/

omit [DecidableLT P] in
/-- The level an entry points to, with an order of the id on it. -/
theorem Anchored.level (hwf : e.book.WF) (h : Anchored e.book.cancelIndex e.book.resting)
    {id : UInt64} {info : CancelInfo P} (hi : e.book.cancelIndex id = some info) :
    ∃ dq, (info.price, dq) ∈ e.book.levels info.side ∧ ∃ o ∈ dq, o.orderId = id := by
  obtain ⟨o, ho, hid, rfl⟩ := h id info hi
  obtain ⟨l, hl, hol⟩ := Levels.mem_orders.mp (hwf.mem_resting ho)
  refine ⟨l.2, ?_, o, hol, hid⟩
  have hprice : o.price = l.1 := (hwf o.side).keyed l hl o hol
  change (o.price, l.2) ∈ e.book.levels o.side
  rw [hprice]
  exact hl

variable [IsStrictOrder P (· < ·)]

/-- A cancel that finds an entry removes an order it names. -/
theorem cancelOrder_removesOne (hwf : e.book.WF)
    (h : Anchored e.book.cancelIndex e.book.resting) {id : UInt64} {info : CancelInfo P}
    (hi : e.book.cancelIndex id = some info) : RemovesOne id e (e.cancelOrder id).1 := by
  obtain ⟨dq, hdq, a, ha, hid⟩ := Anchored.level hwf h hi
  obtain ⟨pre, mid, post, hm, hfind, -, halter⟩ :=
    alter_split (better info.side) info.price (e.book.levels info.side)
  rw [(hwf info.side).sorted.find_of_mem hdq] at hfind
  obtain ⟨l, rfl, rfl⟩ := Option.map_eq_some_iff.mp hfind.symm
  obtain ⟨o, before, after, hbefore, ho, hsplit, herase⟩ :=
    List.exists_of_eraseP (p := (·.orderId == id)) ha (by simpa using hid)
  have hlevels : (e.cancelOrder id).1.book.levels info.side =
      pre ++ ((OrderBook.eraseFrom id l.2).toList.map (Prod.mk l.1) ++ post) :=
    (OrderBook.cancelOrder_levels hi).trans (halter _)
  refine ⟨info.side, pre, l.1, before, o, after, post, by simpa using ho, ?_, ?_, ?_,
    OrderBook.cancelOrder_levels_opposite hi, OrderBook.cancelOrder_cancelIndex hi, rfl, rfl, rfl⟩
  · intro x hx
    simpa using hbefore x hx
  · rw [hm, ← hsplit]
    rfl
  · rw [hlevels, OrderBook.eraseFrom_eq (List.ne_nil_of_mem ha), herase]
    by_cases hempty : before ++ after = []
    · simp [hempty]
    · simp [hempty]

theorem Anchored.noDangling (hwf : e.book.WF)
    (h : Anchored e.book.cancelIndex e.book.resting) : e.NoDangling := by
  refine ⟨fun id info hi => Anchored.level hwf h hi, fun id htrue => ?_, fun id hfalse => ?_⟩
  · cases hi : e.book.cancelIndex id with
    | none => simp [cancelOrder, OrderBook.cancelOrder_none hi] at htrue
    | some info => exact cancelOrder_removesOne hwf h hi
  · cases hi : e.book.cancelIndex id with
    | none => simp only [cancelOrder, OrderBook.cancelOrder_none hi]
    | some info => simp [cancelOrder, OrderBook.cancelOrder_some hi] at hfalse

end

end MatchingEngine

end TradingSystem
