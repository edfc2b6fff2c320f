import TradingSystem.GreedyMatching
import TradingSystem.Cancellation

/-!
# The engine implements price-time priority

A simulation between the engine and `Reference.Engine`: each call keeps the
relation and gives the same reply, and `Machine.run_simulation` carries that
over whole runs. Distinct ids are needed for cancels alone; they keep the
index exact.
-/

namespace TradingSystem

open Reference

variable {P : Type} [LinearOrder P]

structure Simulates (e : MatchingEngine P) (r : Engine P) : Prop where
  collar : e.collar = r.collar
  lastPrice : e.lastPrice = r.lastPrice
  clock : e.nextTimestamp = UInt64.ofNat r.clock
  wf : e.book.WF
  indexed : Indexed e.book.cancelIndex e.book.resting
  queues : ∃ q : Side → List (Resting P), r.resting.Perm (q .buy ++ q .sell) ∧
    ∀ s, Queue s r.clock (q s) (e.book.orders s)

omit [LinearOrder P] in
theorem perm_sides {α : Type} (q : Side → List α) (s : Side) :
    (q .buy ++ q .sell).Perm (q s ++ q s.opposite) := by
  cases s
  · exact List.Perm.refl _
  · exact List.perm_append_comm

theorem queues_of_sides {b : OrderBook P} {s : Side} {clock : ℕ} {rs own other : List (Resting P)}
    (hperm : rs.Perm (own ++ other)) (hown : Queue s clock own (b.orders s))
    (hother : Queue s.opposite clock other (b.orders s.opposite)) :
    ∃ q : Side → List (Resting P), rs.Perm (q .buy ++ q .sell) ∧
      ∀ t, Queue t clock (q t) (b.orders t) := by
  refine ⟨fun t => if t = s then own else other, ?_, fun t => ?_⟩
  · cases s with
    | buy => exact hperm
    | sell => exact hperm.trans List.perm_append_comm
  · rcases s.eq_or_eq_opposite t with rfl | rfl
    · simpa using hown
    · simpa [s.opposite_ne] using hother

/-! ## The reference on the queues of the book -/

section Queues

variable {e : MatchingEngine P} {r : Engine P} {q : Side → List (Resting P)}

theorem queue_side (hwf : e.book.WF) (hq : ∀ s, Queue s r.clock (q s) (e.book.orders s))
    {s : Side} {a : Resting P} (ha : a ∈ q s) : a.side = s := by
  obtain ⟨x, hx, hsame⟩ := ListLemmas.forall₂_exists (hq s).same ha
  rw [hsame.side, (hwf.rests hx).side]

theorem filter_side_perm (hwf : e.book.WF) (hperm : r.resting.Perm (q .buy ++ q .sell))
    (hq : ∀ s, Queue s r.clock (q s) (e.book.orders s)) (s : Side) :
    (r.resting.filter (·.side == s)).Perm (q s) := by
  have hfilter := (hperm.trans (perm_sides q s)).filter (·.side == s)
  have hown : (q s).filter (·.side == s) = q s := by
    rw [List.filter_eq_self]
    intro a ha
    simp [queue_side hwf hq ha]
  have hother : (q s.opposite).filter (·.side == s) = [] := by
    rw [List.filter_eq_nil_iff]
    intro a ha
    simp [queue_side hwf hq ha, s.opposite_ne]
  rwa [List.filter_append, hown, hother, List.append_nil] at hfilter

/-- Sorting finds the order in which the book holds the other side. -/
theorem ranked_eq (hwf : e.book.WF) (hperm : r.resting.Perm (q .buy ++ q .sell))
    (hq : ∀ s, Queue s r.clock (q s) (e.book.orders s)) (o : Order P) :
    r.ranked o = q o.side.opposite :=
  ListLemmas.insertionSort_eq (fun _ _ => Before.precedes)
    (filter_side_perm hwf hperm hq _) (List.pairwise_map.mp (hq _).ordered)

/-- The crossed orders come first. -/
theorem crossed_cut (hwf : e.book.WF) (hperm : r.resting.Perm (q .buy ++ q .sell))
    (hq : ∀ s, Queue s r.clock (q s) (e.book.orders s)) (o : Order P) :
    (q o.side.opposite).takeWhile (crosses o) = (r.ranked o).filter (crosses o) ∧
      (q o.side.opposite).dropWhile (crosses o) =
        (r.ranked o).filter (fun a => !crosses o a) := by
  rw [ranked_eq hwf hperm hq]
  exact ListLemmas.takeWhile_dropWhile_eq_filter
    ((List.pairwise_map.mp (hq o.side.opposite).ordered).imp fun hab => crosses_of_before hab)

/-- A submission's matching loop does what the reference's matching does. -/
theorem matched_filled (hwf : e.book.WF) (hperm : r.resting.Perm (q .buy ++ q .sell))
    (hq : ∀ s, Queue s r.clock (q s) (e.book.orders s))
    (hclock : e.nextTimestamp = UInt64.ofNat r.clock) (o : Order P) :
    Filled (e.tick.enter (e.stamp o)) (e.matched o) (r.clock + 1) (r.matching o)
      ((r.ranked o).filter (fun a => !crosses o a)) := by
  have htick : (e.tick.enter (e.stamp o)).nextTimestamp = UInt64.ofNat (r.clock + 1) := by
    rw [← ofNat_succ, ← hclock]
    rfl
  have hfilled := matchAgainst_filled (o := o) (s := e.tick.enter (e.stamp o)) ⟨rfl, rfl, rfl, rfl⟩
    (hwf o.side.opposite) (hq o.side.opposite).same htick
  obtain ⟨htake, hdrop⟩ := crossed_cut hwf hperm hq o
  rwa [htake, hdrop] at hfilled

/-- The other side after the submission. -/
theorem opposite_queue (hwf : e.book.WF) (hperm : r.resting.Perm (q .buy ++ q .sell))
    (hq : ∀ s, Queue s r.clock (q s) (e.book.orders s))
    (hclock : e.nextTimestamp = UInt64.ofNat r.clock) (o : Order P) :
    Queue o.side.opposite (r.accept o).clock
      ((r.matching o).left ++ (r.ranked o).filter (fun a => !crosses o a))
      (Levels.orders (e.matched o).opposite) := by
  have hle : r.clock ≤ (r.accept o).clock := by
    simp only [Engine.accept]
    omega
  refine (hq o.side.opposite).sublist (matched_filled hwf hperm hq hclock o).left ?_ hle
  have hkeys := fillAll_keys o o.quantity (r.clock + 1) ((r.ranked o).filter (crosses o))
  obtain ⟨htake, hdrop⟩ := crossed_cut hwf hperm hq o
  rw [← List.takeWhile_append_dropWhile (p := crosses o) (l := q o.side.opposite), htake, hdrop,
    List.map_append, List.map_append]
  exact hkeys.append_right _

/-- The order's own side after the submission, with the remainder if it rests. -/
theorem own_queue (hwf : e.book.WF) (hperm : r.resting.Perm (q .buy ++ q .sell))
    (hq : ∀ s, Queue s r.clock (q s) (e.book.orders s))
    (hclock : e.nextTimestamp = UInt64.ofNat r.clock) (o : Order P) :
    ∃ q', q'.Perm (r.remainder o (r.matching o).unfilled ++ q o.side) ∧
      Queue o.side (r.accept o).clock q'
        (((e.tick.leave (e.matched o)).rest (e.matched o).incoming).book.orders o.side) := by
  have hunfilled := (matched_filled hwf hperm hq hclock o).unfilled
  have hown := (MatchingEngine.leave_orders e o).1
  have hlt : r.clock < (r.accept o).clock := by
    simp only [Engine.accept]
    omega
  by_cases hr : 0 < (e.matched o).incoming.remainingQuantity ∧ o.type = .limit
  · have hpush := OrderBook.addRestingOrder_orders (e.tick.leave (e.matched o)).book
      (e.matched o).incoming
    rw [MatchingEngine.matched_side] at hpush
    rw [MatchingEngine.rest_resting hr.1 (by rw [MatchingEngine.matched_type, hr.2]), hpush,
      Engine.remainder, if_pos (hunfilled ▸ hr)]
    have hqueue := hq o.side
    rw [← hown] at hqueue
    refine hqueue.insert (MatchingEngine.leave_WF hwf o o.side) ?_ rfl hlt
    exact ⟨by simp, by simp, by simp, hunfilled.symm⟩
  · have hnone : (e.matched o).incoming.remainingQuantity = 0 ∨
        (e.matched o).incoming.type = .market := by
      rw [MatchingEngine.matched_type, ← not_pos_iff_eq_zero]
      cases ht : o.type with
      | limit => exact Or.inl fun hpos => hr ⟨hpos, ht⟩
      | market => exact Or.inr rfl
    rw [MatchingEngine.rest_none hnone, hown, Engine.remainder, if_neg (hunfilled ▸ hr)]
    refine ⟨q o.side, List.Perm.refl _, ?_⟩
    exact (hq o.side).sublist (hq o.side).same (List.Sublist.refl _) (Nat.le_of_lt hlt)

end Queues

/-! ## One call -/

omit [LinearOrder P] in
theorem any_id_eq {q : List (Resting P)} {os : List (Order P)} (h : List.Forall₂ Same q os)
    (id : UInt64) : os.any (·.orderId == id) = q.any (·.id == id) := by
  induction h with
  | nil => rfl
  | cons hab _ ih => simp only [List.any_cons, hab.id, ih]

theorem Simulates.accept {e : MatchingEngine P} {r : Engine P} (h : Simulates e r) (o : Order P)
    (hindexed : Indexed
      ((e.tick.leave (e.matched o)).rest (e.matched o).incoming).book.cancelIndex
      ((e.tick.leave (e.matched o)).rest (e.matched o).incoming).book.resting) :
    Simulates ((e.tick.leave (e.matched o)).rest (e.matched o).incoming) (r.accept o) ∧
      (e.matched o).trades = (r.matching o).trades := by
  obtain ⟨q, hperm, hq⟩ := h.queues
  have hfilled := matched_filled h.wf hperm hq h.clock o
  have hopp := opposite_queue h.wf hperm hq h.clock o
  obtain ⟨own, hown, hqueue⟩ := own_queue h.wf hperm hq h.clock o
  have hother := MatchingEngine.rest_orders_opposite (e.tick.leave (e.matched o))
    (e.matched o).incoming
  rw [MatchingEngine.matched_side, (MatchingEngine.leave_orders e o).2] at hother
  refine ⟨⟨?_, ?_, ?_, MatchingEngine.submit_WF h.wf o, hindexed, ?_⟩, hfilled.trades⟩
  · rw [MatchingEngine.rest_collar]
    exact h.collar
  · rw [MatchingEngine.rest_lastPrice]
    exact hfilled.lastPrice.trans (by rw [Engine.accept, ← h.lastPrice]; rfl)
  · rw [MatchingEngine.rest_nextTimestamp]
    exact hfilled.clock
  · refine queues_of_sides ?_ hqueue (hother ▸ hopp)
    have hside := filter_side_perm h.wf hperm hq o.side
    have hown' := hown.trans (hside.symm.append_left _)
    refine List.Perm.trans ?_ (hown'.symm.append_right _)
    simp only [Engine.accept, List.append_assoc]
    apply List.Perm.append_left
    rw [← List.append_assoc]
    exact List.perm_append_comm

theorem Simulates.reject {e : MatchingEngine P} {r : Engine P} (h : Simulates e r) :
    Simulates e.tick { r with clock := r.clock + 1 } := by
  obtain ⟨q, hperm, hq⟩ := h.queues
  refine ⟨h.collar, h.lastPrice, ?_, h.wf, h.indexed, q, hperm, fun s => ?_⟩
  · rw [← ofNat_succ, ← h.clock]
    rfl
  · exact (hq s).sublist (hq s).same (List.Sublist.refl _) (Nat.le_succ _)

theorem Simulates.cancel {e : MatchingEngine P} {r : Engine P} (h : Simulates e r) (id : UInt64) :
    Simulates (e.cancelOrder id).1 (r.cancel id).1 ∧ (e.cancelOrder id).2 = (r.cancel id).2 := by
  obtain ⟨q, hperm, hq⟩ := h.queues
  obtain ⟨horders, hfound⟩ := cancelOrder_filter h.wf h.indexed id
  have hsame : ∀ s, List.Forall₂ Same ((q s).filter (fun a => !(a.id == id)))
      ((e.book.orders s).filter (fun o => !(o.orderId == id))) := by
    intro s
    refine List.rel_filter ?_ (hq s).same
    intro a o hao
    simp [hao.id]
  have hindexed := (MatchingEngine.cancelOrder_removes_all h.wf.finds h.indexed id).2.2
  constructor
  · refine ⟨h.collar, h.lastPrice, h.clock, MatchingEngine.cancelOrder_WF h.wf id, hindexed,
      fun s => (q s).filter (fun a => !(a.id == id)), ?_, fun s => ?_⟩
    · rw [← List.filter_append]
      exact hperm.filter _
    · change Queue s _ _ ((e.book.cancelOrder id).1.orders s)
      rw [horders s]
      exact (hq s).sublist (hsame s) (List.filter_sublist.map _) (Nat.le_refl _)
  · change (e.book.cancelOrder id).2 = _
    rw [hfound, Engine.cancel, hperm.any_eq, List.any_append, OrderBook.resting, List.any_append]
    rw [any_id_eq (hq .buy).same id, any_id_eq (hq .sell).same id]

variable [PriceArith P]

theorem Simulates.verdict {e : MatchingEngine P} {r : Engine P} (h : Simulates e r)
    (o : Order P) : e.collarCheck o = r.verdict o := by
  cases htype : o.type <;>
    simp [MatchingEngine.collarCheck, Engine.verdict, htype, h.collar, h.lastPrice]

theorem Simulates.call {e : MatchingEngine P} {r : Engine P} (h : Simulates e r) {c : Call P}
    (hfresh : e.Fresh c) :
    Simulates (e.call c).1 (r.call c).1 ∧ (e.call c).2 = (r.call c).2 := by
  cases c with
  | submit o =>
    have hindexed := MatchingEngine.call_indexed h.wf.finds h.indexed hfresh
    have hverdict := h.verdict o
    cases ha : (e.collarCheck o).accepted with
    | false =>
      simp only [MatchingEngine.call, MatchingEngine.submitOrder_rejected ha, Engine.call,
        Engine.submit, ← hverdict, ha, Bool.false_eq_true, if_false]
      exact ⟨h.reject, trivial⟩
    | true =>
      simp only [MatchingEngine.call, MatchingEngine.submitOrder_accepted ha] at hindexed
      obtain ⟨hsim, htrades⟩ := h.accept o hindexed
      simp only [MatchingEngine.call, MatchingEngine.submitOrder_accepted ha, Engine.call,
        Engine.submit, ← hverdict, ha, if_true]
      exact ⟨hsim, by rw [htrades]⟩
  | cancel id =>
    obtain ⟨hsim, hfound⟩ := h.cancel id
    exact ⟨hsim, congrArg Reply.cancelled hfound⟩

/-! ## Whole runs -/

theorem Simulates.new (band : P) : Simulates (MatchingEngine.new band) (Engine.new band) :=
  ⟨rfl, rfl, rfl, OrderBook.WF.empty, KeyIndex.Exact.empty,
    fun _ => [], List.Perm.refl _, fun s => by
      cases s <;> exact ⟨.nil, List.Pairwise.nil, fun _ hk => by cases hk⟩⟩

omit [LinearOrder P] [PriceArith P] in
theorem submittedIds_snoc (past : List (Call P)) (c : Call P) :
    submittedIds (past ++ [c]) = submittedIds past ++ submittedIds [c] :=
  List.filterMap_append

/-- Resting orders have been submitted. -/
theorem resting_submitted {e : MatchingEngine P} {past : List (Call P)}
    (h : ∀ x ∈ e.book.resting, x.orderId ∈ submittedIds past) (c : Call P) :
    ∀ x ∈ (e.call c).1.book.resting, x.orderId ∈ submittedIds (past ++ [c]) := by
  intro x hx
  rw [submittedIds_snoc, List.mem_append]
  by_contra hn
  rw [not_or] at hn
  have habsent : ∀ y ∈ e.book.resting, y.orderId ≠ x.orderId := fun y hy heq =>
    hn.1 (heq ▸ h y hy)
  have hother : ∀ o, c = .submit o → o.orderId ≠ x.orderId := by
    rintro o rfl heq
    exact hn.2 (by simp [submittedIds, heq])
  exact (MatchingEngine.call_absent habsent hother).1 x hx rfl

/-- An order whose id is new collides with no resting order. -/
theorem fresh_of_distinct {e : MatchingEngine P} {past : List (Call P)} {c : Call P}
    (h : ∀ x ∈ e.book.resting, x.orderId ∈ submittedIds past)
    (hids : (submittedIds (past ++ [c])).Nodup) : e.Fresh c := by
  cases c with
  | cancel id => trivial
  | submit o =>
    apply MatchingEngine.fresh_of_absent
    intro x hx heq
    rw [submittedIds_snoc, List.nodup_append] at hids
    exact hids.2.2 _ (h x hx) o.orderId (by simp [submittedIds]) heq

/-- **The engine refines price-time priority.** Fed the same calls, with no
order id submitted twice, the engine and the reference reply alike to every
one of them: the same trades in the same order, the same rejections and the
same answers to cancels. -/
theorem run_eq_reference (band : P) (calls : List (Call P)) (hids : (submittedIds calls).Nodup) :
    ((MatchingEngine.new band).run calls).2 = ((Engine.new band).run calls).2 := by
  refine (Machine.run_simulation (R := fun past e r => Simulates e r ∧
    ∀ x ∈ e.book.resting, x.orderId ∈ submittedIds past)
    ⟨.new band, fun x hx => by cases hx⟩ calls ?_).2
  rintro past c e r hp ⟨hsim, hpast⟩
  have hdistinct : (submittedIds (past ++ [c])).Nodup :=
    hids.sublist (hp.sublist.filterMap _)
  obtain ⟨hsim', hreply⟩ := hsim.call (fresh_of_distinct hpast hdistinct)
  exact ⟨⟨hsim', resting_submitted hpast c⟩, hreply⟩

/-- Two asks at one price and a better one: a buy takes the better one, then
the older of the two, whose remainder a cancel finds. -/
theorem run_eq_reference_three_asks :
    ((MatchingEngine.new (10 : ℚ)).run [.submit (Order.make 1 .sell .limit 101 5),
        .submit (Order.make 2 .sell .limit 101 5), .submit (Order.make 3 .sell .limit 100 5),
        .submit (Order.make 4 .buy .limit 101 7), .cancel 1, .cancel 1]).2 =
      ((Engine.new (10 : ℚ)).run [.submit (Order.make 1 .sell .limit 101 5),
        .submit (Order.make 2 .sell .limit 101 5), .submit (Order.make 3 .sell .limit 100 5),
        .submit (Order.make 4 .buy .limit 101 7), .cancel 1, .cancel 1]).2 ∧
    ((Engine.new (10 : ℚ)).run [.submit (Order.make 1 .sell .limit 101 5),
        .submit (Order.make 2 .sell .limit 101 5), .submit (Order.make 3 .sell .limit 100 5),
        .submit (Order.make 4 .buy .limit 101 7), .cancel 1, .cancel 1]).2 =
      [.submitted (.trades []), .submitted (.trades []), .submitted (.trades []),
        .submitted (.trades [⟨4, 3, 100, 5, 5⟩, ⟨4, 1, 101, 2, 6⟩]), .cancelled true,
        .cancelled false] :=
  ⟨run_eq_reference 10 _ (by decide), by decide +kernel⟩

end TradingSystem
