import TradingSystem.RestingOrders
import TradingSystem.Lib.KeyIndex

/-!
# Cancelling by id

`cancel_index_` has one slot for an id, the book may hold several orders of
it. `Indexed` is the state in which the two agree. It is kept as long as no
remainder comes to rest beside an order with its id, and lost as soon as one
does: the slot then names the newer order alone. Of the comparison of prices
only one thing is needed, that a cancel finds what the index names.
-/

namespace TradingSystem

variable {P : Type}

/-- The id of the order a trade names on side `s`. -/
def Trade.orderId (t : Trade P) : Side → UInt64
  | .buy => t.buyOrderId
  | .sell => t.sellOrderId

@[simp] theorem makeTrade_orderId (incoming front : Order P) (ts : UInt64) :
    (makeTrade incoming front ts).orderId incoming.side = incoming.orderId := by
  unfold makeTrade Trade.orderId
  cases incoming.side <;> rfl

@[simp] theorem makeTrade_orderId_opposite (incoming front : Order P) (ts : UInt64) :
    (makeTrade incoming front ts).orderId incoming.side.opposite = front.orderId := by
  unfold makeTrade Trade.orderId
  cases incoming.side <;> rfl

/-- What the index stores for an order. -/
def CancelInfo.of (o : Order P) : CancelInfo P := ⟨o.side, o.price⟩

/-- The resting orders have distinct ids and the index names each of them. -/
abbrev Indexed (index : UInt64 → Option (CancelInfo P)) (os : List (Order P)) : Prop :=
  KeyIndex.Exact Order.orderId CancelInfo.of index os

@[simp] theorem MatchingEngine.leave_cancelIndex (e : MatchingEngine P) (s : MatchState P) :
    (e.leave s).book.cancelIndex = s.cancelIndex := rfl

variable [LT P] [DecidableLT P]

/-- A cancel finds an order that the index names. -/
def OrderBook.Finds (b : OrderBook P) : Prop :=
  ∀ a ∈ b.resting, b.cancelIndex a.orderId = some (.of a) →
    ∃ o, o.orderId = a.orderId ∧ b.resting.Perm (o :: (b.cancelOrder a.orderId).1.resting)

/-- A filled order leaves the book together with the entry of its id. -/
theorem matchStep_stable {I : (UInt64 → Option (CancelInfo P)) → List (Order P) → Prop}
    (hI : KeyIndex.Stable Order.orderId CancelInfo.of I) {s t : MatchState P} {own : List (Order P)}
    (h : I s.cancelIndex (own ++ Levels.orders s.opposite)) (hstep : matchStep s = some t) :
    I t.cancelIndex (own ++ Levels.orders t.opposite) := by
  obtain ⟨p, front, queue, rest, hopp, -, -, rfl⟩ := matchStep_some.mp hstep
  have hfront : I s.cancelIndex (front :: (own ++ (queue ++ Levels.orders rest))) := by
    apply hI.perm h
    rw [hopp]
    exact List.perm_middle
  rw [orders_fill]
  simp only [MatchState.fill, remainder]
  split
  · exact hI.remove hfront
  · have hrep : I s.cancelIndex
        (front.take (fillQuantity s.incoming front) :: (own ++ (queue ++ Levels.orders rest))) :=
      hI.replace hfront rfl rfl
    exact hI.perm hrep List.perm_middle.symm

/-- The matching loop trades with orders of the other side only, and leaves
only orders that were there. -/
theorem matched_ids (e : MatchingEngine P) (o : Order P) :
    (∀ r ∈ Levels.orders (e.matched o).opposite,
      ∃ r' ∈ e.book.orders o.side.opposite, r'.orderId = r.orderId) ∧
    ∀ t ∈ (e.matched o).trades,
      ∃ r' ∈ e.book.orders o.side.opposite, r'.orderId = t.orderId o.side.opposite := by
  suffices h : (e.matched o).incoming.side = o.side ∧
      (∀ r ∈ Levels.orders (e.matched o).opposite,
        ∃ r' ∈ e.book.orders o.side.opposite, r'.orderId = r.orderId) ∧
      ∀ t ∈ (e.matched o).trades,
        ∃ r' ∈ e.book.orders o.side.opposite, r'.orderId = t.orderId o.side.opposite from h.2
  refine MatchingEngine.matched_invariant (I := fun s => s.incoming.side = o.side ∧
    (∀ r ∈ Levels.orders s.opposite,
      ∃ r' ∈ e.book.orders o.side.opposite, r'.orderId = r.orderId) ∧
    ∀ t ∈ s.trades, ∃ r' ∈ e.book.orders o.side.opposite,
      r'.orderId = t.orderId o.side.opposite) ?_
    ⟨rfl, fun r hr => ⟨r, hr, rfl⟩, by simp [MatchingEngine.enter]⟩
  rintro s t ⟨hside, hleft, htrades⟩ hstep
  obtain ⟨p, front, queue, rest, hopp, -, -, rfl⟩ := matchStep_some.mp hstep
  rw [hopp, Levels.orders_cons] at hleft
  refine ⟨hside, ?_, ?_⟩
  · intro r hr
    rw [orders_fill] at hr
    rcases List.mem_append.mp hr with hr | hr
    · rw [(mem_remainder hr).1]
      exact hleft front (by simp)
    · exact hleft r (by simpa using Or.inr (List.mem_append.mp hr))
  · intro t ht
    rcases List.mem_append.mp ht with ht | ht
    · exact htrades t ht
    · rw [List.mem_singleton.mp ht, ← hside, makeTrade_orderId_opposite, hside]
      exact hleft front (by simp)

namespace MatchingEngine

theorem leave_stable {I : (UInt64 → Option (CancelInfo P)) → List (Order P) → Prop}
    (hI : KeyIndex.Stable Order.orderId CancelInfo.of I) {e : MatchingEngine P}
    (h : I e.book.cancelIndex e.book.resting) (o : Order P) :
    I (e.tick.leave (e.matched o)).book.cancelIndex
      (e.tick.leave (e.matched o)).book.resting := by
  rw [leave_cancelIndex]
  apply hI.perm _ (leave_resting e o).symm
  exact matched_invariant
    (I := fun s => I s.cancelIndex (e.book.orders o.side ++ Levels.orders s.opposite))
    (fun _ _ => matchStep_stable hI) (hI.perm h (e.book.resting_perm o.side))

theorem leave_indexed {e : MatchingEngine P}
    (h : Indexed e.book.cancelIndex e.book.resting) (o : Order P) :
    Indexed (e.tick.leave (e.matched o)).book.cancelIndex
      (e.tick.leave (e.matched o)).book.resting :=
  leave_stable KeyIndex.exact_stable h o

/-- Matching brings no id into the book. -/
theorem leave_absent {e : MatchingEngine P} {id : UInt64}
    (h : ∀ r ∈ e.book.resting, r.orderId ≠ id) (o : Order P) :
    ∀ r ∈ (e.tick.leave (e.matched o)).book.resting, r.orderId ≠ id := by
  intro r hr
  have hmem := e.book.resting_perm o.side
  rcases List.mem_append.mp ((leave_resting e o).mem_iff.mp hr) with hr | hr
  · exact h r (hmem.mem_iff.mpr (List.mem_append_left _ hr))
  · obtain ⟨r', hr', heq⟩ := (matched_ids e o).1 r hr
    rw [← heq]
    exact h r' (hmem.mem_iff.mpr (List.mem_append_right _ hr'))

section
variable [PriceArith P]

/-- The call rests no remainder beside a resting order with its id. -/
def Fresh (e : MatchingEngine P) : Call P → Prop
  | .submit o =>
    (e.collarCheck o).accepted = true → o.type = .limit →
      0 < (e.matched o).incoming.remainingQuantity →
      ∀ r ∈ (e.tick.leave (e.matched o)).book.resting, r.orderId ≠ o.orderId
  | .cancel _ => True

theorem fresh_of_absent {e : MatchingEngine P} {o : Order P}
    (h : ∀ r ∈ e.book.resting, r.orderId ≠ o.orderId) : e.Fresh (.submit o) :=
  fun _ _ _ => leave_absent h o

/-- The ids of the resting orders a call traded with. -/
def restingIds : Call P → Reply P → List UInt64
  | .submit o, .submitted (.trades ts) => ts.map (·.orderId o.side.opposite)
  | _, _ => []

/-- In this state a cancel fails only for an id nobody rests under, and after
it no resting order has the id, nor has the resting order of a later trade
until the id is submitted again. -/
def Cancellable (e : MatchingEngine P) : Prop :=
  ∀ id, ((e.cancelOrder id).2 = false → ∀ r ∈ e.book.resting, r.orderId ≠ id) ∧
    (∀ r ∈ (e.cancelOrder id).1.book.resting, r.orderId ≠ id) ∧
    ∀ later : List (Call P), (∀ o, Call.submit o ∈ later → o.orderId ≠ id) →
      ∀ x ∈ later.zip ((e.cancelOrder id).1.run later).2, id ∉ restingIds x.1 x.2

end

/-! ## What the index promises -/

theorem cancelOrder_removes_all {e : MatchingEngine P} (hfind : e.book.Finds)
    (h : Indexed e.book.cancelIndex e.book.resting) (id : UInt64) :
    ((e.cancelOrder id).2 = false → ∀ r ∈ e.book.resting, r.orderId ≠ id) ∧
      (∀ r ∈ (e.cancelOrder id).1.book.resting, r.orderId ≠ id) ∧
      Indexed (e.cancelOrder id).1.book.cancelIndex (e.cancelOrder id).1.book.resting := by
  cases hi : e.book.cancelIndex id with
  | none =>
    have hnone := h.none_iff.mp hi
    simp only [cancelOrder, OrderBook.cancelOrder_none hi]
    exact ⟨fun _ => hnone, hnone, h⟩
  | some info =>
    obtain ⟨a, ha, rfl, rfl⟩ := (h.iff id info).mp hi
    obtain ⟨o, ho, hperm⟩ := hfind a ha hi
    have hex := h.perm hperm
    refine ⟨?_, ?_, ?_⟩
    · intro hf
      simp [cancelOrder, OrderBook.cancelOrder_some hi] at hf
    · intro r hr
      rw [← ho]
      exact hex.head_fresh r hr
    · change Indexed (e.book.cancelOrder a.orderId).1.cancelIndex
        (e.book.cancelOrder a.orderId).1.resting
      rw [OrderBook.cancelOrder_cancelIndex hi, ← ho]
      have := hex.remove
      rwa [ho] at this ⊢

theorem rest_indexed {e : MatchingEngine P} (h : Indexed e.book.cancelIndex e.book.resting)
    {o : Order P} (hfresh : 0 < o.remainingQuantity → o.type = .limit →
      ∀ r ∈ e.book.resting, r.orderId ≠ o.orderId) :
    Indexed (e.rest o).book.cancelIndex (e.rest o).book.resting := by
  unfold rest
  split
  · rename_i hr
    have hins := (h.insert (hfresh hr.1 hr.2)).perm (e.book.addRestingOrder_perm o).symm
    change Indexed (e.book.addRestingOrder o).cancelIndex (e.book.addRestingOrder o).resting
    rw [OrderBook.addRestingOrder_cancelIndex]
    exact hins
  · exact h

variable [PriceArith P]

theorem call_indexed {e : MatchingEngine P} (hfind : e.book.Finds)
    (h : Indexed e.book.cancelIndex e.book.resting) {c : Call P} (hfresh : e.Fresh c) :
    Indexed (e.call c).1.book.cancelIndex (e.call c).1.book.resting := by
  cases c with
  | submit o =>
    cases ha : (e.collarCheck o).accepted with
    | false => simpa [call, submitOrder_rejected ha] using h
    | true =>
      simp only [call, submitOrder_accepted ha]
      refine rest_indexed (leave_indexed h o) ?_
      intro hpos ht
      rw [matched_orderId]
      exact hfresh ha (by simpa using ht) hpos
  | cancel id => exact (cancelOrder_removes_all hfind h id).2.2

/-- In a run without such a collision the index is exact in every state. -/
theorem run_indexed (band : P) (calls : List (Call P))
    (hfind : ∀ pre, pre <+: calls → ((new band).run pre).1.book.Finds)
    (hfresh : ∀ pre c, pre ++ [c] <+: calls → ((new band).run pre).1.Fresh c) :
    Indexed ((new band).run calls).1.book.cancelIndex ((new band).run calls).1.book.resting := by
  induction calls using List.reverseRecOn with
  | nil => exact KeyIndex.Exact.empty
  | append_singleton calls c ih =>
    have hpre := List.prefix_append calls [c]
    have hidx := ih (fun pre hp => hfind pre (hp.trans hpre))
      fun pre c' hp => hfresh pre c' (hp.trans hpre)
    rw [run_snoc]
    exact call_indexed (hfind calls hpre) hidx (hfresh calls c (List.prefix_refl _))

/-! ## An id that is gone stays gone -/

/-- A call that does not submit the id brings no order of it into the book,
and trades with none when the book holds none. -/
theorem call_absent {e : MatchingEngine P} {id : UInt64}
    (h : ∀ r ∈ e.book.resting, r.orderId ≠ id) {c : Call P}
    (hc : ∀ o, c = .submit o → o.orderId ≠ id) :
    (∀ r ∈ (e.call c).1.book.resting, r.orderId ≠ id) ∧ id ∉ restingIds c (e.call c).2 := by
  cases c with
  | submit o =>
    have hid : o.orderId ≠ id := hc o rfl
    cases ha : (e.collarCheck o).accepted with
    | false => simpa [call, submitOrder_rejected ha, restingIds] using h
    | true =>
      simp only [call, submitOrder_accepted ha]
      have hleave := leave_absent h o
      constructor
      · unfold rest
        split
        · intro r hr
          rcases List.mem_cons.mp ((OrderBook.addRestingOrder_perm _ _).mem_iff.mp hr) with rfl | hr
          · rwa [matched_orderId]
          · exact hleave r hr
        · exact hleave
      · intro hmem
        obtain ⟨t, ht, heq⟩ := List.mem_map.mp hmem
        obtain ⟨r', hr', heq'⟩ := (matched_ids e o).2 t ht
        have hmem' := (e.book.resting_perm o.side).mem_iff.mpr (List.mem_append_right _ hr')
        exact h r' hmem' (heq'.trans heq)
  | cancel id' =>
    refine ⟨fun r hr => ?_, by simp [restingIds]⟩
    rcases e.book.cancelOrder_cases id' with hperm | ⟨o, -, hperm⟩
    · exact h r (hperm.mem_iff.mp hr)
    · exact h r (hperm.mem_iff.mpr (List.mem_cons_of_mem o hr))

theorem run_absent {e : MatchingEngine P} {id : UInt64}
    (h : ∀ r ∈ e.book.resting, r.orderId ≠ id) {later : List (Call P)}
    (hc : ∀ o, Call.submit o ∈ later → o.orderId ≠ id) :
    ∀ x ∈ later.zip (e.run later).2, id ∉ restingIds x.1 x.2 := by
  induction later generalizing e with
  | nil => simp
  | cons c later ih =>
    obtain ⟨h', hreply⟩ := call_absent h (c := c) fun o ho => hc o (by simp [ho])
    intro x hx
    rw [run_cons, List.zip_cons_cons] at hx
    rcases List.mem_cons.mp hx with rfl | hx
    · exact hreply
    · exact ih h' (fun o ho => hc o (List.mem_cons_of_mem c ho)) x hx

theorem cancellable_of_indexed {e : MatchingEngine P} (hfind : e.book.Finds)
    (h : Indexed e.book.cancelIndex e.book.resting) : e.Cancellable := by
  intro id
  obtain ⟨hfalse, hgone, -⟩ := cancelOrder_removes_all hfind h id
  exact ⟨hfalse, hgone, fun later hc => run_absent hgone hc⟩

/-! ## A collision leaves an order no cancel reaches -/

/-- Of two resting orders with one id a cancel removes at most one. -/
theorem not_cancellable_of_two {e : MatchingEngine P} {a b : Order P} {os : List (Order P)}
    (hperm : e.book.resting.Perm (a :: b :: os)) (hid : a.orderId = b.orderId) :
    ¬ e.Cancellable := by
  intro hcan
  have hgone := (hcan a.orderId).2.1
  rcases e.book.cancelOrder_cases a.orderId with hsame | ⟨o, -, hone⟩
  · exact hgone a (hsame.mem_iff.mpr (hperm.mem_iff.mpr List.mem_cons_self)) rfl
  · have hcount := (hperm.symm.trans hone).countP_eq (fun r => r.orderId == a.orderId)
    have hzero : (e.book.cancelOrder a.orderId).1.resting.countP
        (fun r => r.orderId == a.orderId) = 0 := by
      rw [List.countP_eq_zero]
      intro r hr
      simpa using hgone r hr
    simp only [List.countP_cons, hzero, ← hid, beq_self_eq_true, ite_true] at hcount
    split at hcount <;> omega

theorem not_cancellable_of_collision {e : MatchingEngine P} {c : Call P} (h : ¬ e.Fresh c) :
    ¬ (e.call c).1.Cancellable := by
  cases c with
  | cancel id => exact absurd trivial h
  | submit o =>
    simp only [Fresh, not_forall, Decidable.not_not] at h
    obtain ⟨ha, ht, hpos, r, hr, hid⟩ := h
    simp only [call, submitOrder_accepted ha]
    rw [rest_resting hpos (by rw [matched_type, ht])]
    obtain ⟨pre, post, hsplit⟩ := List.append_of_mem hr
    have hperm := OrderBook.addRestingOrder_perm (e.tick.leave (e.matched o)).book
      (e.matched o).incoming
    rw [hsplit] at hperm
    exact not_cancellable_of_two (hperm.trans (List.perm_middle.cons _))
      (by rw [matched_orderId, hid])

/-- Where cancels find what the index names, all states of a run honour them
exactly if no remainder is ever put to rest while an order with the same id is
resting. -/
theorem cancellable_iff_of_finds (band : P) (calls : List (Call P))
    (hfind : ∀ pre, pre <+: calls → ((new band).run pre).1.book.Finds) :
    (∀ pre, pre <+: calls → ((new band).run pre).1.Cancellable) ↔
      ∀ pre c, pre ++ [c] <+: calls → ((new band).run pre).1.Fresh c := by
  constructor
  · intro hcan pre c hp
    by_contra hn
    have hafter := hcan _ hp
    rw [run_snoc] at hafter
    exact not_cancellable_of_collision hn hafter
  · intro hfresh pre hp
    have hidx := run_indexed band pre (fun pre' hp' => hfind pre' (hp'.trans hp))
      fun pre' c hp' => hfresh pre' c (hp'.trans hp)
    exact cancellable_of_indexed (hfind pre hp) hidx

/-- Two sells of one client, both with id 1: a cancel of id 1 takes the second
one out of the book and leaves the first one beyond the reach of any cancel. -/
theorem not_cancellable_after_reused_id :
    ¬ ((new (10 : ℚ)).run [.submit (Order.make 1 .sell .limit 100 10),
      .submit (Order.make 1 .sell .limit 101 10)]).1.Cancellable := by
  intro hcan
  exact (hcan 1).2.1 _ List.mem_cons_self rfl

end MatchingEngine

/-! ## Well-formed books -/

theorem OrderBook.WF.finds [IsStrictOrder P (· < ·)] {b : OrderBook P} (hwf : b.WF) : b.Finds :=
  fun _ ha hi => hwf.cancelOrder_hit hi (hwf.mem_resting ha) rfl rfl

section
variable {P : Type} [LinearOrder P] {b : OrderBook P}

/-- On the side the entry names, the cancelled order is the only one with the id. -/
theorem cancelOrder_own_side (hwf : b.WF)
    (h : Indexed b.cancelIndex b.resting) {id : UInt64} {info : CancelInfo P}
    (hi : b.cancelIndex id = some info) :
    (b.cancelOrder id).1.orders info.side =
      (b.orders info.side).filter (fun o => !(o.orderId == id)) := by
  have hcongr : ∀ o ∈ b.orders info.side,
      (o.orderId == id && decide (o.price = info.price)) = (o.orderId == id) := by
    intro o ho
    by_cases hid : o.orderId = id
    · subst hid
      obtain rfl := Option.some.inj (hi.symm.trans (h.get (OrderBook.mem_resting_of_orders ho)))
      simp [CancelInfo.of]
    · simp [hid]
  have hunique : (b.orders info.side).Pairwise (fun x y => x.orderId ≠ y.orderId) := by
    have hperm := h.perm (b.resting_perm info.side)
    exact (List.pairwise_append.mp (List.pairwise_map.mp hperm.unique)).1
  rw [hwf.cancelOrder_orders hi, ListLemmas.eraseP_congr hcongr, ListLemmas.eraseP_eq_filter]
  refine hunique.imp fun {x y} hne hx => ?_
  simp only [beq_iff_eq] at hx
  exact beq_false_of_ne fun hy => hne (hx.trans hy.symm)

/-- On the other side no order has the id. -/
theorem cancelOrder_other_side (hwf : b.WF)
    (h : Indexed b.cancelIndex b.resting) {id : UInt64} {info : CancelInfo P}
    (hi : b.cancelIndex id = some info) :
    (b.cancelOrder id).1.orders info.side.opposite =
      (b.orders info.side.opposite).filter (fun o => !(o.orderId == id)) := by
  rw [OrderBook.cancelOrder_orders_opposite hi, List.filter_eq_self.mpr]
  intro o ho
  have hside : o.side = info.side.opposite := (hwf.rests ho).side
  by_cases hid : o.orderId = id
  · subst hid
    obtain rfl := Option.some.inj (hi.symm.trans (h.get (OrderBook.mem_resting_of_orders ho)))
    exact absurd hside.symm (Side.opposite_ne _)
  · simpa using hid

/-- With an exact index a cancel takes out the orders with the id, on either
side, and reports whether there are any. -/
theorem cancelOrder_filter (hwf : b.WF) (h : Indexed b.cancelIndex b.resting)
    (id : UInt64) :
    (∀ s, (b.cancelOrder id).1.orders s = (b.orders s).filter (fun o => !(o.orderId == id))) ∧
      (b.cancelOrder id).2 = b.resting.any (·.orderId == id) := by
  cases hi : b.cancelIndex id with
  | none =>
    have hnone := h.none_iff.mp hi
    rw [OrderBook.cancelOrder_none hi]
    constructor
    · intro s
      rw [List.filter_eq_self.mpr]
      intro o ho
      simpa using hnone o (OrderBook.mem_resting_of_orders ho)
    · symm
      rw [List.any_eq_false]
      intro o ho
      simpa using hnone o ho
  | some info =>
    constructor
    · intro s
      rcases info.side.eq_or_eq_opposite s with rfl | rfl
      · exact cancelOrder_own_side hwf h hi
      · exact cancelOrder_other_side hwf h hi
    · rw [OrderBook.cancelOrder_some hi]
      obtain ⟨a, ha, hid, -⟩ := (h.iff id info).mp hi
      symm
      exact List.any_eq_true.mpr ⟨a, ha, by simpa using hid⟩

end

end TradingSystem
