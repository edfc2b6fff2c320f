import TradingSystem.BookInvariant
import TradingSystem.Lib.ListLemmas

/-!
# The book as lists of resting orders

For a well-formed book the three operations on the levels are operations on
the flat list of a side's orders: an insertion behind the orders of its
price, the removal of one order, and a change of the first order. Facts
about quantities, ids and priority are proved on these lists. Up to the order
of the list they need no well-formed book, nor a comparison that makes sense.
-/

namespace TradingSystem

open OrderedMap

variable {P : Type}

namespace OrderBook

/-- The orders resting on a side, in priority order. -/
def orders (b : OrderBook P) (s : Side) : List (Order P) := Levels.orders (b.levels s)

/-- All resting orders. -/
def resting (b : OrderBook P) : List (Order P) := b.orders .buy ++ b.orders .sell

theorem resting_perm (b : OrderBook P) (s : Side) :
    b.resting.Perm (b.orders s ++ b.orders s.opposite) := by
  cases s
  · exact List.Perm.refl _
  · exact List.perm_append_comm

theorem mem_resting_of_orders {b : OrderBook P} {s : Side} {o : Order P} (ho : o ∈ b.orders s) :
    o ∈ b.resting :=
  (b.resting_perm s).mem_iff.mpr (List.mem_append_left _ ho)

end OrderBook

section
variable [LT P] [DecidableLT P]

namespace Levels

theorem pushBack_perm (s : Side) (o : Order P) (m : Levels P) :
    (orders (OrderBook.pushBack s o m)).Perm (o :: orders m) := by
  obtain ⟨pre, mid, post, hm, -, -, halter⟩ := alter_split (better s) o.price m
  have hmid : orders mid.toList = (mid.map Prod.snd).getD [] := by
    rcases mid with _ | ⟨k, dq⟩ <;> simp
  have hmove : (orders pre ++ (mid.map Prod.snd).getD [] ++ o :: orders post).Perm
      (o :: (orders pre ++ (mid.map Prod.snd).getD [] ++ orders post)) := List.perm_middle
  rw [OrderBook.pushBack, halter, hm]
  simpa only [orders_append, orders_entry, Option.getD_some, List.append_assoc, hmid,
    List.cons_append, List.nil_append] using hmove

/-- An order is taken off the level the search ends at, if it has one with the id. -/
theorem eraseOrder_perm (s : Side) (p : P) (id : UInt64) (m : Levels P) :
    (orders m).Perm (((find (better s) p m).bind (·.find? (·.orderId == id))).toList ++
      orders (OrderBook.eraseOrder s p id m)) := by
  obtain ⟨pre, mid, post, hm, hfind, -, halter⟩ := alter_split (better s) p m
  rw [hfind, OrderBook.eraseOrder, halter, hm]
  cases mid with
  | none => simp
  | some e =>
    simp only [Option.toList_some, Option.map_some, Option.bind_some, orders_append, orders_entry,
      OrderBook.eraseFrom_getD, List.cons_append, List.nil_append]
    have hone := ListLemmas.perm_find_eraseP (fun o : Order P => o.orderId == id) e.2
    refine ((hone.append_right (orders post)).append_left (orders pre)).trans ?_
    rw [List.append_assoc]
    exact List.perm_append_comm_assoc _ _ _

end Levels

namespace OrderBook

theorem addRestingOrder_orders (b : OrderBook P) (o : Order P) :
    (b.addRestingOrder o).orders o.side =
      Levels.orders (pushBack o.side o (b.levels o.side)) := by
  rw [orders, addRestingOrder_levels]

theorem addRestingOrder_orders_opposite (b : OrderBook P) (o : Order P) :
    (b.addRestingOrder o).orders o.side.opposite = b.orders o.side.opposite := by
  rw [orders, addRestingOrder_levels_opposite, orders]

theorem addRestingOrder_cancelIndex (b : OrderBook P) (o : Order P) :
    (b.addRestingOrder o).cancelIndex =
      Function.update b.cancelIndex o.orderId (some ⟨o.side, o.price⟩) := by
  rw [addRestingOrder_eq]

theorem addRestingOrder_perm (b : OrderBook P) (o : Order P) :
    (b.addRestingOrder o).resting.Perm (o :: b.resting) := by
  have h₁ := (b.addRestingOrder o).resting_perm o.side
  rw [addRestingOrder_orders, addRestingOrder_orders_opposite] at h₁
  have h₂ := (Levels.pushBack_perm o.side o (b.levels o.side)).append_right
    (b.orders o.side.opposite)
  exact (h₁.trans h₂).trans ((b.resting_perm o.side).symm.cons o)

/-- The order a cancel of this id erases. -/
def cancelTarget (b : OrderBook P) (id : UInt64) : Option (Order P) :=
  match b.cancelIndex id with
  | none => none
  | some info =>
    (find (better info.side) info.price (b.levels info.side)).bind
      (fun dq => dq.find? (·.orderId == id))

theorem cancelTarget_orderId {b : OrderBook P} {id : UInt64} {o : Order P}
    (h : b.cancelTarget id = some o) : o.orderId = id := by
  unfold cancelTarget at h
  split at h
  · cases h
  · obtain ⟨dq, -, hfind⟩ := Option.bind_eq_some_iff.mp h
    simpa using List.find?_some hfind

theorem cancelOrder_levels {b : OrderBook P} {id : UInt64} {info : CancelInfo P}
    (hi : b.cancelIndex id = some info) :
    (b.cancelOrder id).1.levels info.side =
      eraseOrder info.side info.price id (b.levels info.side) := by
  rw [cancelOrder_some hi]
  exact setLevels_levels _ _ _

theorem cancelOrder_levels_opposite {b : OrderBook P} {id : UInt64} {info : CancelInfo P}
    (hi : b.cancelIndex id = some info) :
    (b.cancelOrder id).1.levels info.side.opposite = b.levels info.side.opposite := by
  rw [cancelOrder_some hi]
  exact setLevels_opposite_levels _ _ _

theorem cancelOrder_orders_opposite {b : OrderBook P} {id : UInt64} {info : CancelInfo P}
    (hi : b.cancelIndex id = some info) :
    (b.cancelOrder id).1.orders info.side.opposite = b.orders info.side.opposite :=
  congrArg Levels.orders (cancelOrder_levels_opposite hi)

theorem cancelOrder_cancelIndex {b : OrderBook P} {id : UInt64} {info : CancelInfo P}
    (hi : b.cancelIndex id = some info) :
    (b.cancelOrder id).1.cancelIndex = Function.update b.cancelIndex id none := by
  rw [cancelOrder_some hi]
  cases info.side <;> rfl

theorem cancelTarget_perm (b : OrderBook P) (id : UInt64) :
    b.resting.Perm ((b.cancelTarget id).toList ++ (b.cancelOrder id).1.resting) := by
  cases hi : b.cancelIndex id with
  | none => simp [cancelTarget, cancelOrder_none hi, hi]
  | some info =>
    have hown := Levels.eraseOrder_perm info.side info.price id (b.levels info.side)
    rw [← cancelOrder_levels hi] at hown
    have hsplit := hown.append_right (b.orders info.side.opposite)
    rw [← cancelOrder_orders_opposite hi, List.append_assoc] at hsplit
    have htarget : b.cancelTarget id = (find (better info.side) info.price
        (b.levels info.side)).bind (·.find? (·.orderId == id)) := by
      simp only [cancelTarget, hi]
    rw [htarget]
    refine (b.resting_perm info.side).trans ?_
    rw [← cancelOrder_orders_opposite hi]
    exact hsplit.trans (((b.cancelOrder id).1.resting_perm info.side).symm.append_left _)

/-- A cancel removes one order, of the id asked for, or leaves the book's
orders as they are. -/
theorem cancelOrder_cases (b : OrderBook P) (id : UInt64) :
    (b.cancelOrder id).1.resting.Perm b.resting ∨
      ∃ o, o.orderId = id ∧ b.resting.Perm (o :: (b.cancelOrder id).1.resting) := by
  have hperm := b.cancelTarget_perm id
  cases ht : b.cancelTarget id with
  | none =>
    rw [ht] at hperm
    exact Or.inl hperm.symm
  | some o =>
    rw [ht] at hperm
    exact Or.inr ⟨o, cancelTarget_orderId ht, hperm⟩

end OrderBook

namespace MatchingEngine

theorem leave_resting (e : MatchingEngine P) (o : Order P) :
    (e.tick.leave (e.matched o)).book.resting.Perm
      (e.book.orders o.side ++ Levels.orders (e.matched o).opposite) := by
  have hperm := (e.tick.leave (e.matched o)).book.resting_perm (e.matched o).incoming.side
  rw [OrderBook.orders, OrderBook.orders, leave_levels, leave_levels_opposite, tick_book,
    matched_side] at hperm
  exact hperm

theorem leave_orders (e : MatchingEngine P) (o : Order P) :
    (e.tick.leave (e.matched o)).book.orders o.side = e.book.orders o.side ∧
      (e.tick.leave (e.matched o)).book.orders o.side.opposite =
        Levels.orders (e.matched o).opposite := by
  obtain ⟨hown, hopp⟩ := e.leave_matched_levels o
  exact ⟨congrArg Levels.orders hown, congrArg Levels.orders hopp⟩

theorem rest_orders_opposite (e : MatchingEngine P) (incoming : Order P) :
    (e.rest incoming).book.orders incoming.side.opposite =
      e.book.orders incoming.side.opposite := by
  unfold rest
  split
  · exact OrderBook.addRestingOrder_orders_opposite _ _
  · rfl

end MatchingEngine

end

/-! ## Well-formed books -/

section
variable [LT P]

theorem Levels.WF.order_rests {s : Side} {m : Levels P} (h : Levels.WF s m) {o : Order P}
    (ho : o ∈ Levels.orders m) : o.Rests s := by
  obtain ⟨e, he, hoe⟩ := Levels.mem_orders.mp ho
  exact h.rests e he o hoe

theorem OrderBook.WF.rests {b : OrderBook P} (h : b.WF) {s : Side} {o : Order P}
    (ho : o ∈ b.orders s) : o.Rests s :=
  (h s).order_rests ho

theorem OrderBook.WF.mem_resting {b : OrderBook P} (h : b.WF) {o : Order P}
    (ho : o ∈ b.resting) : o ∈ b.orders o.side := by
  rcases List.mem_append.mp ho with ho | ho
  · rwa [(h.rests ho).side]
  · rwa [(h.rests ho).side]

variable [DecidableLT P]

/-- An entry that names an order of the level removes one order with the id. -/
theorem OrderBook.WF.cancelOrder_hit [IsStrictOrder P (· < ·)] {b : OrderBook P} (h : b.WF) {id : UInt64} {info : CancelInfo P}
    (hi : b.cancelIndex id = some info) {a : Order P} (ha : a ∈ b.orders info.side)
    (hid : a.orderId = id) (hprice : a.price = info.price) :
    ∃ o, o.orderId = id ∧ b.resting.Perm (o :: (b.cancelOrder id).1.resting) := by
  obtain ⟨l, hl, hal⟩ := Levels.mem_orders.mp ha
  have hkey : l.1 = info.price := ((h info.side).keyed l hl a hal).symm.trans hprice
  have hfind : find (better info.side) info.price (b.levels info.side) = some l.2 :=
    (h info.side).sorted.find_of_mem (hkey ▸ hl)
  obtain ⟨o, ho⟩ : ∃ o, l.2.find? (·.orderId == id) = some o :=
    Option.isSome_iff_exists.mp (List.find?_isSome.mpr ⟨a, hal, by simpa using hid⟩)
  have htarget : b.cancelTarget id = some o := by
    simp only [OrderBook.cancelTarget, hi, hfind, Option.bind_some, ho]
  have hperm := b.cancelTarget_perm id
  rw [htarget] at hperm
  exact ⟨o, OrderBook.cancelTarget_orderId htarget, hperm⟩

end

variable [LinearOrder P]

namespace Levels

theorem keyed_orders {s : Side} {m m' : Levels P} (h : WF s m) (hsub : ∀ e ∈ m', e ∈ m)
    {o : Order P} (ho : o ∈ orders m') : ∃ e ∈ m', o.price = e.1 := by
  obtain ⟨e, he, hoe⟩ := mem_orders.mp ho
  exact ⟨e, he, h.keyed e (hsub e he) o hoe⟩

/-- Time priority: a new order goes behind every order of an equal or better
price and before every other one. -/
theorem WF.orders_pushBack {s : Side} {m : Levels P} (h : WF s m) (o : Order P) :
    ∃ pre post, orders m = pre ++ post ∧ orders (OrderBook.pushBack s o m) = pre ++ o :: post ∧
      (∀ a ∈ pre, ¬ better s o.price a.price) ∧ ∀ a ∈ post, better s o.price a.price := by
  obtain ⟨pre, mid, post, hm, hpre, hpost, hfind, halter⟩ := h.sorted.cut o.price
  refine ⟨orders pre ++ mid.getD [], orders post, ?_, ?_, ?_, ?_⟩
  · rw [hm]
    cases mid <;> simp
  · rw [OrderBook.pushBack, halter]
    simp
  · intro a ha
    rcases List.mem_append.mp ha with ha | ha
    · obtain ⟨e, he, hprice⟩ := keyed_orders h (fun e he => by simp [hm, he]) ha
      rw [hprice]
      exact asymm (hpre e he)
    · cases mid with
      | none => cases ha
      | some dq =>
        rw [((h.found hfind).2 a ha).1]
        exact better_irrefl s _
  · intro a ha
    obtain ⟨e, he, hprice⟩ := keyed_orders h (fun e he => by simp [hm, he]) ha
    rw [hprice]
    exact hpost e he

/-- No order of levels other than `p` has that price. -/
theorem WF.not_at {s : Side} {m m' : Levels P} (h : WF s m) (hsub : ∀ e ∈ m', e ∈ m) {p : P}
    (hp : ∀ e ∈ m', e.1 ≠ p) {a : Order P} (ha : a ∈ orders m') (id : UInt64) :
    ¬ (a.orderId == id && decide (a.price = p)) = true := by
  intro hcond
  obtain ⟨e, he, hprice⟩ := keyed_orders h hsub ha
  have : a.price = p := by simpa using (Bool.and_eq_true_iff.mp hcond).2
  exact hp e he (hprice.symm.trans this)

/-- Around the level `p` no order has that price, whatever its id. -/
theorem WF.cut_orders {s : Side} {m : Levels P} (h : WF s m) (p : P) (id : UInt64) :
    ∃ pre mid post, m = pre ++ (mid.toList.map (Prod.mk p) ++ post) ∧
      find (better s) p m = mid ∧
      (∀ f, OrderedMap.alter (better s) p f m =
        pre ++ ((f mid).toList.map (Prod.mk p) ++ post)) ∧
      (∀ a ∈ orders pre, ¬ (a.orderId == id && decide (a.price = p)) = true) ∧
      ∀ a ∈ orders post, ¬ (a.orderId == id && decide (a.price = p)) = true := by
  obtain ⟨pre, mid, post, hm, hpre, hpost, hfind, halter⟩ := h.sorted.cut p
  refine ⟨pre, mid, post, hm, hfind, halter, ?_, ?_⟩
  · intro a ha
    refine h.not_at (fun e he => by simp [hm, he]) ?_ ha id
    rintro e he rfl
    exact better_irrefl s _ (hpre e he)
  · intro a ha
    refine h.not_at (fun e he => by simp [hm, he]) ?_ ha id
    rintro e he rfl
    exact better_irrefl s _ (hpost e he)

/-- Cancelling erases the first order with the id on the level. -/
theorem WF.orders_eraseOrder {s : Side} {m : Levels P} (h : WF s m) (p : P) (id : UInt64) :
    orders (OrderBook.eraseOrder s p id m) =
      (orders m).eraseP (fun o => o.orderId == id && decide (o.price = p)) := by
  obtain ⟨pre, mid, post, hm, hfind, halter, hne_pre, hne_post⟩ := h.cut_orders p id
  rw [OrderBook.eraseOrder, halter, hm]
  simp only [orders_append]
  rw [List.eraseP_append_right _ hne_pre]
  congr 1
  cases mid with
  | none =>
    simpa using (List.eraseP_of_forall_not hne_post).symm
  | some dq =>
    obtain ⟨-, hall⟩ := h.found hfind
    have herase : dq.eraseP (·.orderId == id) =
        dq.eraseP (fun o => o.orderId == id && decide (o.price = p)) := by
      apply ListLemmas.eraseP_congr
      intro a ha
      simp [(hall a ha).1]
    have hsplit : (dq ++ orders post).eraseP (fun o => o.orderId == id && decide (o.price = p)) =
        dq.eraseP (·.orderId == id) ++ orders post := by
      rw [List.eraseP_append, herase]
      split
      · rfl
      · rename_i hany
        rw [List.eraseP_of_forall_not hne_post, List.eraseP_of_forall_not]
        exact fun a ha hcond => hany (List.any_eq_true.mpr ⟨a, ha, hcond⟩)
    simp only [Option.toList_some, List.map_cons, List.map_nil, orders_cons, orders_nil,
      List.append_nil, Option.bind_some, orders_entry, OrderBook.eraseFrom_getD, hsplit]

end Levels

namespace OrderBook

theorem WF.cancelOrder_orders {b : OrderBook P} (h : b.WF) {id : UInt64} {info : CancelInfo P}
    (hi : b.cancelIndex id = some info) :
    (b.cancelOrder id).1.orders info.side =
      (b.orders info.side).eraseP (fun o => o.orderId == id && decide (o.price = info.price)) := by
  rw [orders, cancelOrder_levels hi]
  exact (h info.side).orders_eraseOrder info.price id

end OrderBook

end TradingSystem
