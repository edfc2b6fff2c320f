import TradingSystem.MatchingEngine

/-!
# What one round of the matching loop does

`matchStep_some` and `matchStep_none` say once what a round can do and when
the loop exits; the quantities of a round are read off in `Nat`. The proofs
about whole submissions use these and never unfold `matchStep` again.
-/

namespace TradingSystem

variable {P : Type}

theorem toNat_fillQuantity (incoming front : Order P) :
    (fillQuantity incoming front).toNat =
      min incoming.remainingQuantity.toNat front.remainingQuantity.toNat := by
  by_cases h : incoming.remainingQuantity ≤ front.remainingQuantity
  · have hmin : fillQuantity incoming front = incoming.remainingQuantity := if_pos h
    rw [hmin, Nat.min_eq_left (UInt64.le_iff_toNat_le.mp h)]
  · have hmin : fillQuantity incoming front = front.remainingQuantity := if_neg h
    rw [UInt64.le_iff_toNat_le] at h
    rw [hmin, Nat.min_eq_right (by omega)]

theorem fillQuantity_le_incoming (incoming front : Order P) :
    fillQuantity incoming front ≤ incoming.remainingQuantity := by
  rw [UInt64.le_iff_toNat_le, toNat_fillQuantity]
  exact Nat.min_le_left _ _

theorem fillQuantity_le_front (incoming front : Order P) :
    fillQuantity incoming front ≤ front.remainingQuantity := by
  rw [UInt64.le_iff_toNat_le, toNat_fillQuantity]
  exact Nat.min_le_right _ _

/-- Neither subtraction of a round wraps. -/
theorem toNat_take_incoming (incoming front : Order P) :
    (incoming.take (fillQuantity incoming front)).remainingQuantity.toNat +
      (fillQuantity incoming front).toNat = incoming.remainingQuantity.toNat := by
  have hle := fillQuantity_le_incoming incoming front
  have hle' := UInt64.le_iff_toNat_le.mp hle
  simp only [Order.take, UInt64.toNat_sub_of_le _ _ hle]
  omega

theorem toNat_take_front (incoming front : Order P) :
    (front.take (fillQuantity incoming front)).remainingQuantity.toNat +
      (fillQuantity incoming front).toNat = front.remainingQuantity.toNat := by
  have hle := fillQuantity_le_front incoming front
  have hle' := UInt64.le_iff_toNat_le.mp hle
  simp only [Order.take, UInt64.toNat_sub_of_le _ _ hle]
  omega

theorem pos_iff_toNat_pos {q : UInt64} : 0 < q ↔ 0 < q.toNat := UInt64.lt_iff_toNat_lt

theorem eq_zero_iff_toNat_eq_zero {q : UInt64} : q = 0 ↔ q.toNat = 0 := by
  rw [← UInt64.toNat_inj]
  rfl

theorem not_pos_iff_eq_zero {q : UInt64} : ¬ 0 < q ↔ q = 0 := by
  rw [UInt64.pos_iff_ne_zero, not_not]

/-- A round that leaves the front order in the book fills the incoming one. -/
theorem incoming_filled_of_front_left {incoming front : Order P}
    (h : (front.take (fillQuantity incoming front)).remainingQuantity ≠ 0) :
    (incoming.take (fillQuantity incoming front)).remainingQuantity = 0 := by
  rw [Ne, eq_zero_iff_toNat_eq_zero] at h
  rw [eq_zero_iff_toNat_eq_zero]
  have h₁ := toNat_take_incoming incoming front
  have h₂ := toNat_take_front incoming front
  have h₃ := toNat_fillQuantity incoming front
  omega

section Orders

@[simp] theorem Order.take_orderId (o : Order P) (q : UInt64) : (o.take q).orderId = o.orderId := rfl
@[simp] theorem Order.take_side (o : Order P) (q : UInt64) : (o.take q).side = o.side := rfl
@[simp] theorem Order.take_quantity (o : Order P) (q : UInt64) : (o.take q).quantity = o.quantity := rfl

/-- What a round leaves of the front order: nothing once it is filled. -/
def remainder (incoming front : Order P) : List (Order P) :=
  let front' := front.take (fillQuantity incoming front)
  if front'.remainingQuantity = 0 then [] else [front']

theorem mem_remainder {incoming front o : Order P} (h : o ∈ remainder incoming front) :
    o = front.take (fillQuantity incoming front) ∧ 0 < o.remainingQuantity := by
  simp only [remainder] at h
  split at h
  · cases h
  · rename_i hne
    rw [List.mem_singleton] at h
    exact ⟨h, by rw [h]; exact UInt64.pos_iff_ne_zero.mpr hne⟩

theorem orders_fill (s : MatchState P) (p : P) (front : Order P) (queue : List (Order P))
    (rest : Levels P) :
    (s.fill p front queue rest).opposite.orders =
      remainder s.incoming front ++ (queue ++ rest.orders) := by
  simp only [MatchState.fill, remainder]
  split
  · cases queue <;> simp
  · simp

/-- A level a round leaves is an untouched one, or the first one with what is
left of its deque. -/
theorem mem_fill_opposite {s : MatchState P} {p : P} {front : Order P} {queue : List (Order P)}
    {rest : Levels P} {l : P × List (Order P)} (hl : l ∈ (s.fill p front queue rest).opposite) :
    l ∈ rest ∨ l.1 = p ∧ l.2 ≠ [] ∧ ∀ o ∈ l.2, o ∈ remainder s.incoming front ∨ o ∈ queue := by
  simp only [MatchState.fill] at hl
  split at hl
  · split at hl
    · exact Or.inl hl
    · rename_i hq
      rcases List.mem_cons.mp hl with rfl | hl
      · exact Or.inr ⟨rfl, by simpa using hq, fun o ho => Or.inr ho⟩
      · exact Or.inl hl
  · rename_i hleft
    rcases List.mem_cons.mp hl with rfl | hl
    · refine Or.inr ⟨rfl, List.cons_ne_nil _ _, fun o ho => ?_⟩
      simpa [remainder, hleft] using ho
    · exact Or.inl hl

end Orders

namespace MatchingEngine

@[simp] theorem tick_book (e : MatchingEngine P) : e.tick.book = e.book := rfl

@[simp] theorem leave_levels (e : MatchingEngine P) (s : MatchState P) :
    (e.leave s).book.levels s.incoming.side = e.book.levels s.incoming.side := by
  unfold leave
  cases s.incoming.side <;> rfl

@[simp] theorem leave_levels_opposite (e : MatchingEngine P) (s : MatchState P) :
    (e.leave s).book.levels s.incoming.side.opposite = s.opposite := by
  unfold leave
  cases s.incoming.side <;> rfl

/-- A loop without a round leaves the engine as it was. -/
theorem leave_enter (e : MatchingEngine P) (incoming : Order P) :
    e.leave (e.enter incoming) = e := by
  unfold leave enter OrderBook.setLevels
  cases incoming.side <;> rfl

end MatchingEngine

variable [LT P] [DecidableLT P]

theorem Order.stopsAt_iff {o : Order P} {p : P} :
    o.stopsAt p = true ↔ o.type = .limit ∧ better o.side.opposite o.price p := by
  unfold Order.stopsAt
  cases hs : o.side <;> cases ht : o.type <;> simp [better, Side.opposite]

/-- A round takes place on the front order of the best level. -/
theorem matchStep_some {s t : MatchState P} :
    matchStep s = some t ↔
      ∃ p front queue rest, s.opposite = (p, front :: queue) :: rest ∧
        0 < s.incoming.remainingQuantity ∧ s.incoming.stopsAt p = false ∧
        t = s.fill p front queue rest := by
  unfold matchStep
  constructor
  · intro h
    split at h
    · rename_i hpos
      split at h
      · cases h
      · rename_i p dq rest hopp
        split at h
        · cases h
        · rename_i hstop
          split at h
          · cases h
          · rename_i front queue
            cases h
            exact ⟨p, front, queue, rest, hopp, hpos, by simpa using hstop, rfl⟩
    · cases h
  · rintro ⟨p, front, queue, rest, hopp, hpos, hstop, rfl⟩
    simp [hopp, hpos, hstop]

/-- The exits of the loop. The last one is `front()` of an empty deque. -/
theorem matchStep_none {s : MatchState P} (h : matchStep s = none) :
    s.incoming.remainingQuantity = 0 ∨ s.opposite = [] ∨
      ∃ p dq rest, s.opposite = (p, dq) :: rest ∧ (s.incoming.stopsAt p = true ∨ dq = []) := by
  unfold matchStep at h
  split at h
  · split at h
    · rename_i hopp
      exact Or.inr (Or.inl hopp)
    · rename_i p dq rest hopp
      refine Or.inr (Or.inr ⟨p, dq, rest, hopp, ?_⟩)
      split at h
      · rename_i hstop
        exact Or.inl hstop
      · split at h
        · exact Or.inr rfl
        · cases h
  · rename_i hpos
    exact Or.inl (not_pos_iff_eq_zero.mp hpos)

theorem matchStep_rounds {s t : MatchState P} (h : matchStep s = some t) :
    t.rounds < s.rounds := by
  obtain ⟨p, front, queue, rest, hopp, hpos, -, rfl⟩ := matchStep_some.mp h
  have hs : s.rounds = queue.length + (Levels.orders rest).length + 2 := by
    simp [MatchState.rounds, hopp, hpos]
  rw [hs]
  unfold MatchState.rounds
  rw [orders_fill]
  by_cases hf : (front.take (fillQuantity s.incoming front)).remainingQuantity = 0
  · have hlen : (remainder s.incoming front).length = 0 := by simp [remainder, hf]
    simp only [List.length_append, hlen]
    split <;> omega
  · have hlen : (remainder s.incoming front).length = 1 := by simp [remainder, hf]
    have hinc : (s.fill p front queue rest).incoming.remainingQuantity = 0 :=
      incoming_filled_of_front_left hf
    simp only [List.length_append, hlen, hinc]
    simp
    omega

/-- The loop of `match_against` always reaches one of its exits. -/
theorem matchAgainst_exit (s : MatchState P) : matchStep (matchAgainst s) = none :=
  Loop.run_exit (fun _ _ => matchStep_rounds) (Nat.le_refl _)

theorem matchAgainst_done {s : MatchState P} (h : matchStep s = none) : matchAgainst s = s :=
  Loop.run_none h _

theorem matchAgainst_step {s t : MatchState P} (h : matchStep s = some t) :
    matchAgainst s = matchAgainst t := by
  have hrun : Loop.run matchStep (t.rounds + 1) s = matchAgainst t := Loop.run_some h _
  rw [← hrun]
  apply Loop.run_fuel (matchAgainst_exit s)
  rw [hrun]
  exact matchAgainst_exit t

/-- Induction along the rounds of the loop. -/
@[elab_as_elim]
theorem MatchState.rounds_induction {motive : MatchState P → Prop}
    (exit : ∀ s, matchStep s = none → motive s)
    (round : ∀ s t, matchStep s = some t → motive t → motive s) (s : MatchState P) : motive s := by
  induction hn : s.rounds using Nat.strong_induction_on generalizing s with
  | _ n ih =>
    cases hs : matchStep s with
    | none => exact exit s hs
    | some t => exact round s t hs (ih t.rounds (hn ▸ matchStep_rounds hs) t rfl)

theorem matchStep_eq_none {s : MatchState P}
    (h : ∀ p dq rest, s.opposite = (p, dq) :: rest → 0 < s.incoming.remainingQuantity →
      s.incoming.stopsAt p = true) : matchStep s = none := by
  cases hs : matchStep s with
  | none => rfl
  | some t =>
    obtain ⟨p, front, queue, rest, hopp, hpos, hstop, -⟩ := matchStep_some.mp hs
    rw [h p _ rest hopp hpos] at hstop
    cases hstop

/-- A filled order makes no round. -/
theorem matchAgainst_of_filled {s : MatchState P} (h : s.incoming.remainingQuantity = 0) :
    matchAgainst s = s := by
  apply matchAgainst_done
  apply matchStep_eq_none
  intro p dq rest _ hpos
  exact absurd hpos (not_pos_iff_eq_zero.mpr h)

theorem matchAgainst_invariant {I : MatchState P → Prop}
    (hstep : ∀ s t, I s → matchStep s = some t → I t) {s : MatchState P} (h : I s) :
    I (matchAgainst s) :=
  Loop.run_invariant hstep _ h

/-- Trades are only appended. -/
theorem matchAgainst_extends_trades (s : MatchState P) : s.trades <+: (matchAgainst s).trades := by
  refine matchAgainst_invariant (I := fun t => s.trades <+: t.trades) ?_ List.prefix_rfl
  intro t u ht hstep
  obtain ⟨p, front, queue, rest, -, -, -, rfl⟩ := matchStep_some.mp hstep
  exact ht.trans (List.prefix_append _ _)

/-- The trade of a round is among those the loop emits. -/
theorem makeTrade_mem {s : MatchState P} {p : P} {front : Order P} {queue : List (Order P)}
    {rest : Levels P} (h : matchStep s = some (s.fill p front queue rest)) :
    makeTrade s.incoming front s.nextTimestamp ∈ (matchAgainst s).trades := by
  rw [matchAgainst_step h]
  exact (matchAgainst_extends_trades _).subset (List.mem_append_right _ List.mem_cons_self)

/-- A loop that makes a round emits a trade. -/
theorem matchAgainst_trades_ne_nil {s t : MatchState P} (h : matchStep s = some t) :
    (matchAgainst s).trades ≠ [] := by
  obtain ⟨p, front, queue, rest, -, -, -, rfl⟩ := matchStep_some.mp h
  exact List.ne_nil_of_mem (makeTrade_mem h)

theorem matchStep_incoming {s t : MatchState P} (h : matchStep s = some t) :
    t.incoming.remainingQuantity ≤ s.incoming.remainingQuantity ∧
      t.incoming = { s.incoming with remainingQuantity := t.incoming.remainingQuantity } := by
  obtain ⟨p, front, queue, rest, -, -, -, rfl⟩ := matchStep_some.mp h
  refine ⟨?_, rfl⟩
  rw [UInt64.le_iff_toNat_le]
  have := toNat_take_incoming s.incoming front
  simp only [MatchState.fill]
  omega

/-- Matching changes nothing of the incoming order but its remaining quantity. -/
theorem matchAgainst_incoming (s : MatchState P) :
    (matchAgainst s).incoming.remainingQuantity ≤ s.incoming.remainingQuantity ∧
      (matchAgainst s).incoming =
        { s.incoming with remainingQuantity := (matchAgainst s).incoming.remainingQuantity } := by
  refine matchAgainst_invariant (I := fun t =>
    t.incoming.remainingQuantity ≤ s.incoming.remainingQuantity ∧
      t.incoming = { s.incoming with remainingQuantity := t.incoming.remainingQuantity }) ?_
    ⟨UInt64.le_refl _, rfl⟩
  intro t u ht hstep
  obtain ⟨hle, heq⟩ := matchStep_incoming hstep
  refine ⟨UInt64.le_trans hle ht.1, ?_⟩
  rw [heq, ht.2]

/-- Matching opens no price level. -/
theorem matchStep_keys {s t : MatchState P} (hstep : matchStep s = some t) {e : P × List (Order P)}
    (he : e ∈ t.opposite) : ∃ e' ∈ s.opposite, e'.1 = e.1 := by
  obtain ⟨p, front, queue, rest, hopp, -, -, rfl⟩ := matchStep_some.mp hstep
  rw [hopp]
  rcases mem_fill_opposite he with he | ⟨hp, -⟩
  · exact ⟨e, List.mem_cons_of_mem _ he, rfl⟩
  · exact ⟨_, List.mem_cons_self, hp.symm⟩

namespace MatchingEngine

/-- The end of the matching loop of a submission. -/
def matched (e : MatchingEngine P) (o : Order P) : MatchState P :=
  matchAgainst (e.tick.enter (e.stamp o))

theorem matched_incoming (e : MatchingEngine P) (o : Order P) :
    (e.matched o).incoming.remainingQuantity ≤ o.quantity ∧
      (e.matched o).incoming =
        { e.stamp o with remainingQuantity := (e.matched o).incoming.remainingQuantity } :=
  matchAgainst_incoming (e.tick.enter (e.stamp o))

theorem matched_exit (e : MatchingEngine P) (o : Order P) : matchStep (e.matched o) = none :=
  matchAgainst_exit _

/-- What every round preserves carries from the start of a submission to its end. -/
theorem matched_invariant {I : MatchState P → Prop}
    (hstep : ∀ s t, I s → matchStep s = some t → I t) {e : MatchingEngine P} {o : Order P}
    (h : I (e.tick.enter (e.stamp o))) : I (e.matched o) :=
  matchAgainst_invariant hstep h

theorem matched_keys (e : MatchingEngine P) (o : Order P) {x : P × List (Order P)}
    (hx : x ∈ (e.matched o).opposite) : ∃ y ∈ e.book.levels o.side.opposite, y.1 = x.1 := by
  refine matched_invariant (I := fun s => ∀ x ∈ s.opposite,
    ∃ y ∈ e.book.levels o.side.opposite, y.1 = x.1) ?_ (fun x hx => ⟨x, hx, rfl⟩) x hx
  intro s t hs hstep x hx
  obtain ⟨x', hx', hkey⟩ := matchStep_keys hstep hx
  obtain ⟨y, hy, hkey'⟩ := hs x' hx'
  exact ⟨y, hy, hkey'.trans hkey⟩

/-- Each round sets the last price to that of its trade. -/
theorem matched_lastPrice (e : MatchingEngine P) (o : Order P) :
    (e.matched o).lastPrice =
      ((e.matched o).trades.getLast?.map Trade.price).or e.lastPrice := by
  refine matched_invariant (I := fun s => s.lastPrice =
    (s.trades.getLast?.map Trade.price).or e.lastPrice) ?_ rfl
  intro s t _ hstep
  obtain ⟨p, front, queue, rest, -, -, -, rfl⟩ := matchStep_some.mp hstep
  simp [MatchState.fill, makeTrade]

section
variable (e : MatchingEngine P) (o : Order P)

@[simp] theorem matched_side : (e.matched o).incoming.side = o.side := by
  rw [(e.matched_incoming o).2]; rfl

@[simp] theorem matched_type : (e.matched o).incoming.type = o.type := by
  rw [(e.matched_incoming o).2]; rfl

@[simp] theorem matched_price : (e.matched o).incoming.price = o.price := by
  rw [(e.matched_incoming o).2]; rfl

@[simp] theorem matched_orderId : (e.matched o).incoming.orderId = o.orderId := by
  rw [(e.matched_incoming o).2]; rfl

@[simp] theorem matched_quantity : (e.matched o).incoming.quantity = o.quantity := by
  rw [(e.matched_incoming o).2]; rfl

end

/-- Matching changes the levels of the other side only. -/
theorem leave_matched_levels (e : MatchingEngine P) (o : Order P) :
    (e.tick.leave (e.matched o)).book.levels o.side = e.book.levels o.side ∧
      (e.tick.leave (e.matched o)).book.levels o.side.opposite = (e.matched o).opposite := by
  have hown := leave_levels e.tick (e.matched o)
  have hopp := leave_levels_opposite e.tick (e.matched o)
  rw [matched_side] at hown hopp
  exact ⟨hown, hopp⟩

theorem rest_resting {e : MatchingEngine P} {incoming : Order P}
    (h : 0 < incoming.remainingQuantity) (ht : incoming.type = .limit) :
    e.rest incoming = { e with book := e.book.addRestingOrder incoming } :=
  if_pos ⟨h, ht⟩

theorem rest_none {e : MatchingEngine P} {incoming : Order P}
    (h : incoming.remainingQuantity = 0 ∨ incoming.type = .market) : e.rest incoming = e := by
  apply if_neg
  rintro ⟨hpos, ht⟩
  rcases h with h | h
  · exact not_pos_iff_eq_zero.mpr h hpos
  · rw [h] at ht; cases ht

@[simp] theorem rest_collar (e : MatchingEngine P) (incoming : Order P) :
    (e.rest incoming).collar = e.collar := by
  unfold rest
  split <;> rfl

@[simp] theorem rest_lastPrice (e : MatchingEngine P) (incoming : Order P) :
    (e.rest incoming).lastPrice = e.lastPrice := by
  unfold rest
  split <;> rfl

@[simp] theorem rest_nextTimestamp (e : MatchingEngine P) (incoming : Order P) :
    (e.rest incoming).nextTimestamp = e.nextTimestamp := by
  unfold rest
  split <;> rfl

/-! What holds of a side of the book carries over each change a call makes to
the book: matching changes the other side, resting and cancelling one level. -/

section Sides
variable {Q : Side → Levels P → Prop} {e : MatchingEngine P}

theorem leave_sides {o : Order P} (hown : Q o.side (e.book.levels o.side))
    (hopp : Q o.side.opposite (e.matched o).opposite) (s : Side) :
    Q s ((e.tick.leave (e.matched o)).book.levels s) := by
  obtain ⟨heq, heq'⟩ := e.leave_matched_levels o
  rcases o.side.eq_or_eq_opposite s with rfl | rfl
  · rw [heq]
    exact hown
  · rw [heq']
    exact hopp

theorem rest_sides {o : Order P} (h : ∀ s, Q s (e.book.levels s))
    (hpush : 0 < o.remainingQuantity → o.type = .limit →
      Q o.side (OrderBook.pushBack o.side o (e.book.levels o.side))) (s : Side) :
    Q s ((e.rest o).book.levels s) := by
  unfold rest
  split
  · rename_i hr
    rcases o.side.eq_or_eq_opposite s with rfl | rfl
    · simp only [OrderBook.addRestingOrder_levels]
      exact hpush hr.1 hr.2
    · simp only [OrderBook.addRestingOrder_levels_opposite]
      exact h _
  · exact h s

theorem cancelOrder_sides {id : UInt64} (h : ∀ s, Q s (e.book.levels s))
    (herase : ∀ s p, Q s (OrderBook.eraseOrder s p id (e.book.levels s))) (s : Side) :
    Q s ((e.cancelOrder id).1.book.levels s) := by
  cases hi : e.book.cancelIndex id with
  | none =>
    simp only [cancelOrder, OrderBook.cancelOrder_none hi]
    exact h s
  | some info =>
    simp only [cancelOrder, OrderBook.cancelOrder_some hi]
    change Q s ((e.book.setLevels info.side _).levels s)
    by_cases hs : s = info.side
    · subst hs
      rw [OrderBook.setLevels_levels]
      exact herase _ _
    · rw [OrderBook.setLevels_levels_ne _ hs]
      exact h s

end Sides

variable [PriceArith P]

theorem submitOrder_rejected {e : MatchingEngine P} {o : Order P}
    (h : (e.collarCheck o).accepted = false) :
    e.submitOrder o = (e.tick, .rejection ⟨o.orderId, (e.collarCheck o).reason⟩) := by
  have ha : e.tick.collarCheck (e.stamp o) = e.collarCheck o := rfl
  have hid : (e.stamp o).orderId = o.orderId := rfl
  simp [submitOrder, ha, h, hid]

theorem submitOrder_accepted {e : MatchingEngine P} {o : Order P}
    (h : (e.collarCheck o).accepted = true) :
    e.submitOrder o =
      ((e.tick.leave (e.matched o)).rest (e.matched o).incoming, .trades (e.matched o).trades) := by
  have ha : e.tick.collarCheck (e.stamp o) = e.collarCheck o := rfl
  simp [submitOrder, ha, h, matched]

/-- A market order without quantity draws a timestamp and does nothing else. -/
theorem submitOrder_zero_market (e : MatchingEngine P) {o : Order P} (hm : o.type = .market)
    (hq : o.quantity = 0) : e.submitOrder o = (e.tick, .trades []) := by
  have ha : (e.collarCheck o).accepted = true := by simp [collarCheck, hm]
  have hmatched : e.matched o = e.tick.enter (e.stamp o) := matchAgainst_of_filled hq
  have hrest : e.tick.rest (e.tick.enter (e.stamp o)).incoming = e.tick := rest_none (.inr hm)
  rw [submitOrder_accepted ha, hmatched, leave_enter, hrest]
  rfl

/-- What a whole run preserves, from what each of the three kinds of call
does: a rejection draws a timestamp, an accepted order is matched and perhaps
rested, a cancel touches the book only. -/
theorem run_invariant {I : MatchingEngine P → Prop}
    (hreject : ∀ e o, I e → (e.collarCheck o).accepted = false → I e.tick)
    (haccept : ∀ e o, I e → (e.collarCheck o).accepted = true →
      I ((e.tick.leave (e.matched o)).rest (e.matched o).incoming))
    (hcancel : ∀ e id, I e → I (e.cancelOrder id).1)
    {e : MatchingEngine P} (h : I e) (calls : List (Call P)) : I (e.run calls).1 := by
  refine Machine.run_invariant ?_ h calls
  intro e c he
  cases c with
  | submit o =>
    cases ha : (e.collarCheck o).accepted with
    | false => simpa [call, submitOrder_rejected ha] using hreject e o he ha
    | true => simpa [call, submitOrder_accepted ha] using haccept e o he ha
  | cancel id => exact hcancel e id he

end MatchingEngine

end TradingSystem
