import TradingSystem.HiddenOrder

/-!
# An order that never trades leaves no trace

The index has an entry for the hidden order exactly while it rests. Every
call of another id keeps this, and keeps the two engines alike; the submission
and the cancellation of the hidden order change the one engine only, and
after the cancellation nothing is hidden any more.
-/

namespace TradingSystem

variable {P : Type} {id : UInt64}

/-! ## The hidden order and the index -/

/-- Where the orders of an id rest. -/
def restingAt (id : UInt64) (os : List (Order P)) : List (CancelInfo P) :=
  (os.filter (·.orderId == id)).map CancelInfo.of

theorem restingAt_append (os os' : List (Order P)) :
    restingAt id (os ++ os') = restingAt id os ++ restingAt id os' := by
  simp [restingAt]

theorem restingAt_cons_ne {o : Order P} (h : o.orderId ≠ id) (os : List (Order P)) :
    restingAt id (o :: os) = restingAt id os := by
  simp [restingAt, h]

theorem restingAt_cons_self {o : Order P} (h : o.orderId = id) (os : List (Order P)) :
    restingAt id (o :: os) = CancelInfo.of o :: restingAt id os := by
  simp [restingAt, h]

theorem restingAt_perm (id : UInt64) {os os' : List (Order P)} (h : os.Perm os') :
    (restingAt id os).Perm (restingAt id os') :=
  (h.filter _).map _

variable [LinearOrder P]

/-- The index has an entry for the id exactly where an order of it rests. -/
structure OrderBook.Tracks (id : UInt64) (b : OrderBook P) : Prop where
  wf : b.WF
  resting : (restingAt id b.resting).Perm (b.cancelIndex id).toList

theorem OrderBook.Tracks.absent {b : OrderBook P} (h : b.Tracks id)
    (hi : b.cancelIndex id = none) : ∀ r ∈ b.resting, r.orderId ≠ id := by
  intro r hr hid
  have hmem : CancelInfo.of r ∈ restingAt id b.resting :=
    List.mem_map_of_mem (List.mem_filter.mpr ⟨hr, by simpa using hid⟩)
  have hentry := h.resting.mem_iff.mp hmem
  rw [hi] at hentry
  cases hentry

theorem OrderBook.Tracks.absent_side {b : OrderBook P} (h : b.Tracks id)
    (hi : b.cancelIndex id = none) (s : Side) :
    ∀ r ∈ Levels.orders (b.levels s), r.orderId ≠ id :=
  fun r hr => h.absent hi r (OrderBook.mem_resting_of_orders hr)

/-- Cancelling the id removes the one order of it that rests. -/
theorem OrderBook.Tracks.cancelOrder_gone {b : OrderBook P} (h : b.Tracks id)
    {info : CancelInfo P} (hi : b.cancelIndex id = some info) :
    restingAt id (b.cancelOrder id).1.resting = [] := by
  have hentry := h.resting
  rw [hi, Option.toList_some] at hentry
  obtain ⟨a, ha, rfl⟩ := List.mem_map.mp (hentry.mem_iff.mpr List.mem_cons_self)
  obtain ⟨hrests, hid⟩ := List.mem_filter.mp ha
  obtain ⟨o, ho, hperm⟩ := h.wf.cancelOrder_hit hi (h.wf.mem_resting hrests)
    (by simpa using hid) rfl
  have hleft := (restingAt_perm id hperm).symm.trans hentry
  rw [restingAt_cons_self ho] at hleft
  have hlength := hleft.length_eq
  simpa using hlength

namespace MatchingEngine

variable {e' e : MatchingEngine P}

/-- Matching that names no order of the id touches none. -/
theorem matched_restingAt {x : Order P} (hnone : ∀ t ∈ (e.matched x).trades, names id t = false) :
    restingAt id (Levels.orders (e.matched x).opposite) =
        restingAt id (e.book.orders x.side.opposite) ∧
      (e.matched x).cancelIndex id = e.book.cancelIndex id := by
  refine matched_invariant (I := fun s => (∀ t ∈ s.trades, names id t = false) →
    restingAt id (Levels.orders s.opposite) = restingAt id (e.book.orders x.side.opposite) ∧
      s.cancelIndex id = e.book.cancelIndex id) ?_ (fun _ => ⟨rfl, rfl⟩) hnone
  intro s t hs hstep htrades
  obtain ⟨p, front, queue, rest, hopp, -, -, rfl⟩ := matchStep_some.mp hstep
  obtain ⟨hsame, hindex⟩ := hs fun t ht => htrades t (List.mem_append_left _ ht)
  have hid : front.orderId ≠ id :=
    (names_makeTrade.mp (htrades _ (List.mem_append_right _ List.mem_cons_self))).2
  constructor
  · rw [orders_fill, ← hsame, hopp, Levels.orders_cons, List.cons_append, restingAt_cons_ne hid,
      restingAt_append]
    have hgone : restingAt id (remainder s.incoming front) = [] := by
      simp only [remainder]
      split <;> simp [restingAt, hid]
    rw [hgone, List.nil_append]
  · rw [← hindex]
    simp only [MatchState.fill]
    split
    · exact Function.update_of_ne hid.symm _ _
    · rfl

theorem leave_tracks (h : e.book.Tracks id) {x : Order P}
    (hnone : ∀ t ∈ (e.matched x).trades, names id t = false) :
    (e.tick.leave (e.matched x)).book.Tracks id ∧
      (e.tick.leave (e.matched x)).book.cancelIndex id = e.book.cancelIndex id := by
  obtain ⟨hsame, hindex⟩ := matched_restingAt hnone
  refine ⟨⟨leave_WF h.wf x, ?_⟩, hindex⟩
  rw [leave_cancelIndex, hindex]
  refine (restingAt_perm id (leave_resting e x)).trans (List.Perm.trans ?_ h.resting)
  rw [restingAt_append, hsame, ← restingAt_append]
  exact restingAt_perm id (e.book.resting_perm x.side).symm

theorem rest_tracks (h : e.book.Tracks id) {x : Order P} (hid : x.orderId ≠ id)
    (hwf : (e.rest x).book.WF) :
    (e.rest x).book.Tracks id ∧ (e.rest x).book.cancelIndex id = e.book.cancelIndex id := by
  by_cases hr : 0 < x.remainingQuantity ∧ x.type = .limit
  · rw [rest_resting hr.1 hr.2] at hwf ⊢
    have hindex : (e.book.addRestingOrder x).cancelIndex id = e.book.cancelIndex id := by
      rw [OrderBook.addRestingOrder_cancelIndex]
      exact Function.update_of_ne hid.symm _ _
    refine ⟨⟨hwf, ?_⟩, hindex⟩
    simp only [hindex]
    refine (restingAt_perm id (OrderBook.addRestingOrder_perm _ x)).trans ?_
    rw [restingAt_cons_ne hid]
    exact h.resting
  · have hsame : e.rest x = e := if_neg hr
    rw [hsame]
    exact ⟨h, rfl⟩

theorem cancelOrder_tracks (h : e.book.Tracks id) {other : UInt64} (hne : other ≠ id) :
    (e.cancelOrder other).1.book.Tracks id ∧
      (e.cancelOrder other).1.book.cancelIndex id = e.book.cancelIndex id := by
  have hindex : (e.book.cancelOrder other).1.cancelIndex id = e.book.cancelIndex id := by
    cases hi : e.book.cancelIndex other with
    | none => rw [OrderBook.cancelOrder_none hi]
    | some info =>
      rw [OrderBook.cancelOrder_cancelIndex hi]
      exact Function.update_of_ne hne.symm _ _
  refine ⟨⟨cancelOrder_WF h.wf other, ?_⟩, hindex⟩
  change (restingAt id (e.book.cancelOrder other).1.resting).Perm
    ((e.book.cancelOrder other).1.cancelIndex id).toList
  rw [hindex]
  rcases e.book.cancelOrder_cases other with hperm | ⟨o, ho, hperm⟩
  · exact (restingAt_perm id hperm).trans h.resting
  · have hrest := restingAt_perm id hperm
    rw [restingAt_cons_ne (by rw [ho]; exact hne)] at hrest
    exact hrest.symm.trans h.resting

/-! ## Two engines that differ by the hidden order -/

/-- The engine of the run with the order and the engine of the run without it. -/
structure Alike (id : UInt64) (e' e : MatchingEngine P) : Prop where
  levels : ∀ s, Levels.view id (e'.book.levels s) = Levels.view id (e.book.levels s)
  cancelIndex : ∀ i, i ≠ id → e'.book.cancelIndex i = e.book.cancelIndex i
  lastPrice : e'.lastPrice = e.lastPrice
  collar : e'.collar = e.collar

namespace Alike

theorem matched (h : Alike id e' e) (hwf' : e'.book.WF) (hwf : e.book.WF) {x : Order P}
    (habsent : ∀ r ∈ Levels.orders (e.book.levels x.side.opposite), r.orderId ≠ id)
    (hnone : ∀ t ∈ (e'.matched x).trades, names id t = false) :
    (e'.matched x).Alike id (e.matched x) :=
  matchAgainst_alike
    { opposite := h.levels _
      absent := habsent
      incoming := rfl
      trades := rfl
      cancelIndex := h.cancelIndex
      lastPrice := h.lastPrice }
    (hwf' _) (hwf _) rfl hnone

theorem leave (h : Alike id e' e) {x : Order P} (hm : (e'.matched x).Alike id (e.matched x)) :
    Alike id (e'.tick.leave (e'.matched x)) (e.tick.leave (e.matched x)) where
  levels := by
    intro s
    obtain ⟨hown', hopp'⟩ := e'.leave_matched_levels x
    obtain ⟨hown, hopp⟩ := e.leave_matched_levels x
    rcases x.side.eq_or_eq_opposite s with rfl | rfl
    · rw [hown', hown]
      exact h.levels _
    · rw [hopp', hopp]
      exact hm.opposite
  cancelIndex := hm.cancelIndex
  lastPrice := hm.lastPrice
  collar := h.collar

theorem rest (h : Alike id e' e) (hwf' : e'.book.WF) (hwf : e.book.WF) {x' x : Order P}
    (hx : x'.untimed = x.untimed) (hid : x.orderId ≠ id) : Alike id (e'.rest x') (e.rest x) := by
  obtain ⟨hid', hside, htype, hprice, hquantity⟩ := Order.untimed_eq hx
  by_cases hr : 0 < x.remainingQuantity ∧ x.type = .limit
  · rw [rest_resting (hquantity ▸ hr.1) (htype ▸ hr.2), rest_resting hr.1 hr.2]
    refine ⟨fun s => ?_, fun i hi => ?_, h.lastPrice, h.collar⟩
    · rcases x.side.eq_or_eq_opposite s with rfl | rfl
      · have hlevels' := e'.book.addRestingOrder_levels x'
        rw [hside] at hlevels'
        rw [hlevels', OrderBook.addRestingOrder_levels, (hwf' _).view_pushBack (hid' ▸ hid),
          (hwf _).view_pushBack hid, hx, h.levels]
      · have hlevels' := e'.book.addRestingOrder_levels_opposite x'
        rw [hside] at hlevels'
        rw [hlevels', OrderBook.addRestingOrder_levels_opposite]
        exact h.levels _
    · simp only [OrderBook.addRestingOrder_cancelIndex, hid', hside, hprice]
      by_cases hi' : i = x.orderId
      · simp [hi']
      · simp [hi', h.cancelIndex i hi]
  · have hsame' : e'.rest x' = e' := if_neg (by rw [hquantity, htype]; exact hr)
    have hsame : e.rest x = e := if_neg hr
    rw [hsame', hsame]
    exact h

theorem cancelOrder (h : Alike id e' e) (hwf' : e'.book.WF) (hwf : e.book.WF) {other : UInt64}
    (hne : other ≠ id) :
    Alike id (e'.cancelOrder other).1 (e.cancelOrder other).1 ∧
      (e'.cancelOrder other).2 = (e.cancelOrder other).2 := by
  have hsame := h.cancelIndex other hne
  unfold MatchingEngine.cancelOrder
  cases hi : e.book.cancelIndex other with
  | none =>
    rw [hi] at hsame
    rw [OrderBook.cancelOrder_none hi, OrderBook.cancelOrder_none hsame]
    exact ⟨h, rfl⟩
  | some info =>
    rw [hi] at hsame
    refine ⟨⟨fun s => ?_, fun i hi' => ?_, h.lastPrice, h.collar⟩, ?_⟩
    · rw [OrderBook.cancelOrder_some hi, OrderBook.cancelOrder_some hsame]
      change Levels.view id ((e'.book.setLevels info.side _).levels s) =
        Levels.view id ((e.book.setLevels info.side _).levels s)
      by_cases hs : s = info.side
      · rw [hs, OrderBook.setLevels_levels, OrderBook.setLevels_levels,
          (hwf' _).view_eraseOrder _ hne, (hwf _).view_eraseOrder _ hne, h.levels]
      · rw [OrderBook.setLevels_levels_ne _ hs, OrderBook.setLevels_levels_ne _ hs]
        exact h.levels s
    · rw [OrderBook.cancelOrder_cancelIndex hi, OrderBook.cancelOrder_cancelIndex hsame]
      by_cases hother : i = other
      · simp [hother]
      · simp [hother, h.cancelIndex i hi']
    · rw [OrderBook.cancelOrder_some hi, OrderBook.cancelOrder_some hsame]

end Alike

/-! ## The hidden order alone -/

/-- The two engines, with the hidden order in none but the first, and there
only where the index says. -/
structure Twins (id : UInt64) (e' e : MatchingEngine P) : Prop where
  alike : Alike id e' e
  tracks' : e'.book.Tracks id
  tracks : e.book.Tracks id
  absent : e.book.cancelIndex id = none

/-- The hidden order comes to rest. -/
theorem Twins.rest (h : Twins id e' e) (hnone : e'.book.cancelIndex id = none) {x : Order P}
    (hid : x.orderId = id) (hwf : (e'.rest x).book.WF) : Twins id (e'.rest x) e := by
  by_cases hr : 0 < x.remainingQuantity ∧ x.type = .limit
  · have hlevels : ∀ s, Levels.view id ((e'.rest x).book.levels s) =
        Levels.view id (e.book.levels s) :=
      rest_sides (Q := fun s m => Levels.view id m = Levels.view id (e.book.levels s))
        h.alike.levels fun _ _ => ((h.tracks'.wf _).view_pushBack_self hid).trans (h.alike.levels _)
    rw [rest_resting hr.1 hr.2] at hwf hlevels ⊢
    refine ⟨⟨hlevels, fun i hi => ?_, h.alike.lastPrice, h.alike.collar⟩, ⟨hwf, ?_⟩, h.tracks,
      h.absent⟩
    · rw [OrderBook.addRestingOrder_cancelIndex, Function.update_of_ne (by rw [hid]; exact hi)]
      exact h.alike.cancelIndex i hi
    · have hempty : restingAt id e'.book.resting = [] := by
        have := h.tracks'.resting
        rwa [hnone, Option.toList_none, List.perm_nil] at this
      refine (restingAt_perm id (OrderBook.addRestingOrder_perm _ x)).trans ?_
      rw [restingAt_cons_self hid, hempty, OrderBook.addRestingOrder_cancelIndex, hid,
        Function.update_self]
      exact List.Perm.refl _
  · have hsame : e'.rest x = e' := if_neg hr
    rw [hsame]
    exact h

/-- Without the hidden order the two books are the same up to timestamps. -/
theorem Twins.untimed_eq (h : Twins id e' e) (hnone : e'.book.cancelIndex id = none) :
    e'.book.untimed = e.book.untimed := by
  have hlevels : ∀ s, Levels.untimed (e'.book.levels s) = Levels.untimed (e.book.levels s) := by
    intro s
    have hview := h.alike.levels s
    rwa [Levels.view_absent (h.tracks'.wf s).nonempty (h.tracks'.absent_side hnone s),
      Levels.view_absent (h.tracks.wf s).nonempty (h.tracks.absent_side h.absent s)] at hview
  have hindex : e'.book.cancelIndex = e.book.cancelIndex := by
    funext i
    by_cases hi : i = id
    · rw [hi, hnone, h.absent]
    · exact h.alike.cancelIndex i hi
  have hbids := hlevels .buy
  have hasks := hlevels .sell
  simp only [OrderBook.levels] at hbids hasks
  rw [OrderBook.untimed, OrderBook.untimed, hbids, hasks, hindex]

/-! ## Calls and runs -/

variable [PriceArith P]

/-- A call that neither mentions the id nor trades with it leaves the index
entry of the id, and what it says, as they are. -/
theorem call_tracks (h : e.book.Tracks id) {c : Call P} (hc : c.id ≠ id)
    (hnone : ∀ t ∈ (e.call c).2.trades, names id t = false) :
    (e.call c).1.book.Tracks id ∧ (e.call c).1.book.cancelIndex id = e.book.cancelIndex id := by
  cases c with
  | cancel other => exact cancelOrder_tracks h hc
  | submit x =>
    cases ha : (e.collarCheck x).accepted with
    | false => simpa [call, submitOrder_rejected ha] using h
    | true =>
      simp only [call, submitOrder_accepted ha, Reply.trades] at hnone ⊢
      obtain ⟨hleave, hindex⟩ := leave_tracks h hnone
      have hid : (e.matched x).incoming.orderId ≠ id := by
        rw [matched_orderId]
        exact hc
      obtain ⟨hrest, hindex'⟩ := rest_tracks hleave hid (submit_WF h.wf x)
      exact ⟨hrest, hindex'.trans hindex⟩

theorem Alike.collarCheck (h : Alike id e' e) (x : Order P) :
    e'.collarCheck x = e.collarCheck x := by
  unfold MatchingEngine.collarCheck
  rw [h.collar, h.lastPrice]

/-- **One call in both runs**, of another id, in which no trade names the hidden order. -/
theorem Alike.call (h : Alike id e' e) (ht' : e'.book.Tracks id)
    (ht : e.book.Tracks id) (habsent : e.book.cancelIndex id = none) {c : Call P} (hc : c.id ≠ id)
    (hnone : ∀ t ∈ (e'.call c).2.trades, names id t = false) :
    Alike id (e'.call c).1 (e.call c).1 ∧ (e'.call c).2.untimed = (e.call c).2.untimed := by
  cases c with
  | cancel other =>
    obtain ⟨halike, hfound⟩ := h.cancelOrder ht'.wf ht.wf hc
    exact ⟨halike, congrArg Reply.cancelled hfound⟩
  | submit x =>
    have hverdict := h.collarCheck x
    cases ha : (e.collarCheck x).accepted with
    | false =>
      have ha' : (e'.collarCheck x).accepted = false := by rw [hverdict, ha]
      simp only [MatchingEngine.call, submitOrder_rejected ha, submitOrder_rejected ha', hverdict]
      exact ⟨⟨h.levels, h.cancelIndex, h.lastPrice, h.collar⟩, trivial⟩
    | true =>
      have ha' : (e'.collarCheck x).accepted = true := by rw [hverdict, ha]
      simp only [MatchingEngine.call, submitOrder_accepted ha, submitOrder_accepted ha',
        Reply.trades] at hnone ⊢
      have hm := h.matched ht'.wf ht.wf (ht.absent_side habsent _) hnone
      have hid : (e.matched x).incoming.orderId ≠ id := by
        rw [matched_orderId]
        exact hc
      refine ⟨(h.leave hm).rest (leave_WF ht'.wf x) (leave_WF ht.wf x) hm.incoming hid, ?_⟩
      simp only [Reply.untimed, SubmitResult.untimed, hm.trades]

namespace Twins

theorem call (h : Twins id e' e) {c : Call P} (hc : c.id ≠ id)
    (hnone : ∀ t ∈ (e'.call c).2.trades, names id t = false) :
    Twins id (e'.call c).1 (e.call c).1 ∧ (e'.call c).2.untimed = (e.call c).2.untimed ∧
      (e'.call c).1.book.cancelIndex id = e'.book.cancelIndex id := by
  obtain ⟨halike, hreply⟩ := h.alike.call h.tracks' h.tracks h.absent hc hnone
  have htrades : (e'.call c).2.trades.map Trade.untimed = (e.call c).2.trades.map Trade.untimed := by
    rw [← trades_untimed, ← trades_untimed, hreply]
  obtain ⟨ht', hi'⟩ := call_tracks h.tracks' hc hnone
  obtain ⟨ht, hi⟩ := call_tracks h.tracks hc (names_untimed htrades hnone)
  exact ⟨⟨halike, ht', ht, hi.trans h.absent⟩, hreply, hi'⟩

theorem run (h : Twins id e' e) {calls : List (Call P)} (hc : ∀ c ∈ calls, c.id ≠ id)
    (hnone : ∀ t ∈ (e'.run calls).2.flatMap Reply.trades, names id t = false) :
    Twins id (e'.run calls).1 (e.run calls).1 ∧ e'.answers calls = e.answers calls ∧
      (e'.run calls).1.book.cancelIndex id = e'.book.cancelIndex id := by
  induction calls generalizing e' e with
  | nil => exact ⟨h, rfl, rfl⟩
  | cons c calls ih =>
    have hfirst : ∀ t ∈ (e'.call c).2.trades, names id t = false := fun t ht =>
      hnone t (List.mem_append_left _ ht)
    obtain ⟨hcall, hreply, hindex⟩ := h.call (hc c List.mem_cons_self) hfirst
    obtain ⟨hrun, hanswers, hindex'⟩ := ih hcall (fun c hc' => hc c (List.mem_cons_of_mem _ hc'))
      fun t ht => hnone t (List.mem_append_right _ ht)
    refine ⟨hrun, ?_, hindex'.trans hindex⟩
    change (c, (e'.call c).2.untimed) :: (e'.call c).1.answers calls =
      (c, (e.call c).2.untimed) :: (e.call c).1.answers calls
    rw [hreply, hanswers]

/-- The hidden order is submitted, and trades with nobody. -/
theorem submit (h : Twins id e' e) (hnone : e'.book.cancelIndex id = none) {o : Order P}
    (hid : o.orderId = id)
    (htrades : ∀ t ∈ (e'.call (.submit o)).2.trades, names id t = false) :
    Twins id (e'.call (.submit o)).1 e := by
  have htick : Twins id e'.tick e :=
    ⟨⟨h.alike.levels, h.alike.cancelIndex, h.alike.lastPrice, h.alike.collar⟩,
      ⟨h.tracks'.wf, h.tracks'.resting⟩, h.tracks, h.absent⟩
  cases ha : (e'.collarCheck o).accepted with
  | false =>
    simp only [MatchingEngine.call, submitOrder_rejected ha]
    exact htick
  | true =>
    simp only [MatchingEngine.call, submitOrder_accepted ha, Reply.trades] at htrades ⊢
    -- a round would emit a trade that names the incoming order
    have hstop : matchStep (e'.tick.enter (e'.stamp o)) = none := by
      cases hstep : matchStep (e'.tick.enter (e'.stamp o)) with
      | none => rfl
      | some t =>
        obtain ⟨p, front, queue, rest, -, -, -, rfl⟩ := matchStep_some.mp hstep
        exact absurd hid (names_makeTrade.mp (htrades _ (makeTrade_mem hstep))).1
    have hmatched : e'.matched o = e'.tick.enter (e'.stamp o) := matchAgainst_done hstop
    have hwf := submit_WF h.tracks'.wf o
    rw [hmatched, leave_enter] at hwf ⊢
    exact htick.rest hnone hid hwf

/-- The hidden order is cancelled: it is gone from the book and the index. -/
theorem cancel (h : Twins id e' e) :
    Twins id (e'.call (.cancel id)).1 e ∧
      (e'.call (.cancel id)).1.book.cancelIndex id = none := by
  simp only [MatchingEngine.call]
  cases hi : e'.book.cancelIndex id with
  | none =>
    simp only [MatchingEngine.cancelOrder, OrderBook.cancelOrder_none hi]
    exact ⟨h, hi⟩
  | some info =>
    have hlevels : ∀ s, Levels.view id ((e'.cancelOrder id).1.book.levels s) =
        Levels.view id (e.book.levels s) :=
      cancelOrder_sides (Q := fun s m => Levels.view id m = Levels.view id (e.book.levels s))
        h.alike.levels fun s p => ((h.tracks'.wf s).view_eraseOrder_self p).trans (h.alike.levels s)
    have hindex := OrderBook.cancelOrder_cancelIndex hi
    have hgone : (e'.cancelOrder id).1.book.cancelIndex id = none := by
      rw [MatchingEngine.cancelOrder, hindex, Function.update_self]
    refine ⟨⟨⟨hlevels, fun i hne => ?_, h.alike.lastPrice, h.alike.collar⟩,
      ⟨cancelOrder_WF h.tracks'.wf id, ?_⟩, h.tracks, h.absent⟩, hgone⟩
    · rw [MatchingEngine.cancelOrder, hindex, Function.update_of_ne hne]
      exact h.alike.cancelIndex i hne
    · change (restingAt id (e'.book.cancelOrder id).1.resting).Perm _
      rw [hgone, h.tracks'.cancelOrder_gone hi]
      exact List.Perm.refl _

end Twins

theorem twins_new (band : P) : Twins id (new band) (new band) where
  alike := ⟨fun _ => rfl, fun _ _ => rfl, rfl, rfl⟩
  tracks' := ⟨.empty, List.Perm.refl _⟩
  tracks := ⟨.empty, List.Perm.refl _⟩
  absent := rfl

section Answers
variable (e : MatchingEngine P)

theorem answers_cons (c : Call P) (calls : List (Call P)) :
    e.answers (c :: calls) = (c, (e.call c).2.untimed) :: (e.call c).1.answers calls := rfl

theorem answers_append (calls more : List (Call P)) :
    e.answers (calls ++ more) = e.answers calls ++ (e.run calls).1.answers more := by
  induction calls generalizing e with
  | nil => rfl
  | cons c calls ih =>
    rw [List.cons_append, answers_cons, answers_cons, ih]
    rfl

theorem answers_filter {calls : List (Call P)} (h : ∀ c ∈ calls, c.id ≠ id) :
    (e.answers calls).filter (·.1.id != id) = e.answers calls := by
  rw [List.filter_eq_self]
  intro x hx
  simpa using h x.1 (List.of_mem_zip hx).1

end Answers

/-- **An order that never trades leaves no trace.** A run in which it is
submitted and later cancelled is compared with the run without these two
calls. No other call mentions its id and no trade names it. Then all other
calls return the same up to timestamps, and the book, the index and the last
price are the same up to timestamps. -/
theorem no_trace (band : P) (a b c : List (Call P)) (o : Order P)
    (hother : ∀ x ∈ a ++ b ++ c, x.id ≠ o.orderId)
    (hnone : ∀ t ∈ ((new band).run (a ++ .submit o :: (b ++ .cancel o.orderId :: c))).2.flatMap
      Reply.trades, names o.orderId t = false) :
    let extended := a ++ .submit o :: (b ++ .cancel o.orderId :: c)
    ((new band).answers extended).filter (·.1.id != o.orderId) = (new band).answers (a ++ b ++ c) ∧
      ((new band).run extended).1.book.untimed = ((new band).run (a ++ b ++ c)).1.book.untimed ∧
      ((new band).run extended).1.lastPrice = ((new band).run (a ++ b ++ c)).1.lastPrice := by
  simp only [List.mem_append] at hother
  have ha : ∀ x ∈ a, x.id ≠ o.orderId := fun x hx => hother x (.inl (.inl hx))
  have hb : ∀ x ∈ b, x.id ≠ o.orderId := fun x hx => hother x (.inl (.inr hx))
  have hc : ∀ x ∈ c, x.id ≠ o.orderId := fun x hx => hother x (.inr hx)
  simp only [run_append, run_cons, List.flatMap_append, List.flatMap_cons, List.mem_append]
    at hnone
  obtain ⟨h₁, -, hi₁⟩ := (twins_new band).run ha fun t ht => hnone t (.inl ht)
  have h₂ := h₁.submit hi₁ rfl fun t ht => hnone t (.inr (.inl ht))
  obtain ⟨h₃, hanswers₃, -⟩ := h₂.run hb fun t ht => hnone t (.inr (.inr (.inl ht)))
  obtain ⟨h₄, hi₄⟩ := h₃.cancel
  obtain ⟨h₅, hanswers₅, hi₅⟩ := h₄.run hc fun t ht => hnone t (.inr (.inr (.inr (.inr ht))))
  simp only [answers_append, answers_cons, run_append, run_cons, List.filter_append,
    List.filter_cons]
  refine ⟨?_, h₅.untimed_eq (hi₅.trans hi₄), h₅.alike.lastPrice⟩
  have hsubmit : ((Call.submit o).id != o.orderId) = false := by simp [Call.id]
  have hcancel : ((Call.cancel o.orderId : Call P).id != o.orderId) = false := by simp [Call.id]
  rw [answers_filter _ ha, answers_filter _ hb, answers_filter _ hc, hanswers₃, hanswers₅]
  simp only [hsubmit, hcancel, Bool.false_eq_true, if_false, List.append_assoc]

def askBefore : List (Call ℚ) := [.submit (Order.make 1 .sell .limit 100 10)]

/-- A bid that rests behind the hidden one, an ask that stops at it, and a trade. -/
def callsBetween : List (Call ℚ) :=
  [.submit (Order.make 2 .buy .limit 98 5), .submit (Order.make 3 .sell .limit 101 5),
    .submit (Order.make 4 .buy .limit 100 5)]

def sellAfter : List (Call ℚ) := [.submit (Order.make 5 .sell .limit 98 5), .cancel 3]

/-- The hidden order is the best bid, on a level of its own, while others trade. -/
theorem no_trace_best_bid :
    (((new 10).run (askBefore ++ callsBetween ++ sellAfter)).2.flatMap Reply.trades).length = 2 ∧
      ((new 10).run (askBefore ++ .submit (Order.make 9 .buy .limit 99 5) ::
          (callsBetween ++ .cancel 9 :: sellAfter))).1.book.untimed =
        ((new 10).run (askBefore ++ callsBetween ++ sellAfter)).1.book.untimed :=
  ⟨by decide +kernel,
    (no_trace 10 askBefore callsBetween sellAfter (Order.make 9 .buy .limit 99 5)
      (by decide +kernel) (by decide +kernel)).2.1⟩

end MatchingEngine

end TradingSystem
