import TradingSystem.ReferenceEngine
import TradingSystem.RestingOrders

/-!
# The matching loop is a greedy fill in priority order

One side of the book lists, level by level, the reference's orders of that
side in priority order (`Queue`). `matchAgainst_filled` follows the loop
along such a queue: it trades with the crossed orders as `fillAll` does.
-/

namespace TradingSystem

open Reference

variable {P : Type} [LinearOrder P]

/-! ## Priority -/

/-- The strict priority order on (price, arrival). -/
def Before (s : Side) (a b : P × ℕ) : Prop := better s a.1 b.1 ∨ a.1 = b.1 ∧ a.2 < b.2

instance (s : Side) : Std.Total (precedes (P := P) s) where
  total a b := by
    rcases trichotomous (r := better s) a.price b.price with h | h | h
    · exact Or.inl (Or.inl h)
    · rcases Nat.le_total a.arrival b.arrival with ht | ht
      · exact Or.inl (Or.inr ⟨h, ht⟩)
      · exact Or.inr (Or.inr ⟨h.symm, ht⟩)
    · exact Or.inr (Or.inl h)

instance (s : Side) : IsTrans (Resting P) (precedes s) where
  trans a b c := by
    rintro (h₁ | ⟨h₁, t₁⟩) (h₂ | ⟨h₂, t₂⟩)
    · exact Or.inl (better_trans h₁ h₂)
    · exact Or.inl (h₂ ▸ h₁)
    · exact Or.inl (h₁ ▸ h₂)
    · exact Or.inr ⟨h₁.trans h₂, Nat.le_trans t₁ t₂⟩

theorem Before.precedes {s : Side} {a b : Resting P} (h : Before s a.key b.key) :
    precedes s a b ∧ ¬ precedes s b a := by
  rcases h with h | ⟨h, ht⟩
  · refine ⟨Or.inl h, ?_⟩
    rintro (h' | ⟨h', -⟩)
    · exact better_irrefl s _ (better_trans h h')
    · exact better_irrefl s a.price (by simpa [Resting.key, h'] using h)
  · refine ⟨Or.inr ⟨h, Nat.le_of_lt ht⟩, ?_⟩
    rintro (h' | ⟨-, ht'⟩)
    · exact better_irrefl s a.price (by simpa [Resting.key, ← show a.price = b.price from h] using h')
    · exact Nat.not_lt.mpr ht' ht

theorem crosses_eq_not_stopsAt (o : Order P) (r : Resting P) :
    crosses o r = !o.stopsAt r.price := by
  rw [Bool.eq_iff_iff, Bool.not_eq_true', ← Bool.not_eq_true, Order.stopsAt_iff]
  unfold crosses
  cases o.type <;> cases o.side <;> simp [better, Side.opposite]

/-- Of two orders on the other side the one with priority is crossed first. -/
theorem crosses_of_before {o : Order P} {a b : Resting P}
    (h : Before o.side.opposite a.key b.key) (hb : crosses o b = true) : crosses o a = true := by
  simp only [crosses_eq_not_stopsAt, Bool.not_eq_true', ← Bool.not_eq_true,
    Order.stopsAt_iff] at hb ⊢
  rintro ⟨ht, ha⟩
  refine hb ⟨ht, ?_⟩
  rcases h with h | ⟨h, -⟩
  · exact better_trans ha h
  · rwa [show b.price = a.price from h.symm]

/-! ## One side of the book as a queue of the reference -/

structure Same (r : Resting P) (o : Order P) : Prop where
  id : r.id = o.orderId
  side : r.side = o.side
  price : r.price = o.price
  remaining : r.remaining = o.remainingQuantity

/-- The orders `os` of side `s` are the reference's orders `q` in priority order. -/
structure Queue (s : Side) (clock : ℕ) (q : List (Resting P)) (os : List (Order P)) : Prop where
  same : List.Forall₂ Same q os
  ordered : (q.map Resting.key).Pairwise (Before s)
  past : ∀ k ∈ q.map Resting.key, k.2 < clock

theorem Queue.sublist {s : Side} {clock clock' : ℕ} {q q' : List (Resting P)}
    {os os' : List (Order P)} (h : Queue s clock q os) (hsame : List.Forall₂ Same q' os')
    (hsub : (q'.map Resting.key).Sublist (q.map Resting.key)) (hclock : clock ≤ clock') :
    Queue s clock' q' os' :=
  ⟨hsame, h.ordered.sublist hsub,
    fun k hk => Nat.lt_of_lt_of_le (h.past k (hsub.subset hk)) hclock⟩

/-- The order the book inserts by price goes where its arrival puts it. -/
theorem Queue.insert {s : Side} {clock clock' : ℕ} {q : List (Resting P)} {m : Levels P}
    (h : Queue s clock q (Levels.orders m)) (hwf : Levels.WF s m) {r : Resting P} {o : Order P}
    (hr : Same r o) (harr : r.arrival = clock) (hclock : clock < clock') :
    ∃ q', q'.Perm (r :: q) ∧ Queue s clock' q' (Levels.orders (OrderBook.pushBack s o m)) := by
  obtain ⟨pre, post, hm, hpush, hpre, hpost⟩ := hwf.orders_pushBack o
  have hsame := h.same
  rw [hm] at hsame
  have hleft := List.forall₂_take_append q pre post hsame
  have hright := List.forall₂_drop_append q pre post hsame
  generalize hq₁ : q.take pre.length = q₁ at hleft
  generalize hq₂ : q.drop pre.length = q₂ at hright
  have hq : q = q₁ ++ q₂ := by rw [← hq₁, ← hq₂, List.take_append_drop]
  subst hq
  have hordered := h.ordered
  have hpast := h.past
  simp only [List.map_append, List.pairwise_append, List.mem_append] at hordered hpast
  obtain ⟨ho₁, ho₂, ho₁₂⟩ := hordered
  -- earlier orders of an equal or better price stay in front, the others fall behind
  have hbefore : ∀ k ∈ q₁.map Resting.key, Before s k r.key := by
    intro k hk
    obtain ⟨a, ha, rfl⟩ := List.mem_map.mp hk
    obtain ⟨x, hx, hax⟩ := ListLemmas.forall₂_exists hleft ha
    have hlt : a.arrival < r.arrival := harr ▸ hpast _ (Or.inl hk)
    rcases trichotomous (r := better s) a.price r.price with hp | hp | hp
    · exact Or.inl hp
    · exact Or.inr ⟨hp, hlt⟩
    · rw [hr.price, hax.price] at hp
      exact absurd hp (hpre x hx)
  have hafter : ∀ k ∈ q₂.map Resting.key, Before s r.key k := by
    intro k hk
    obtain ⟨a, ha, rfl⟩ := List.mem_map.mp hk
    obtain ⟨x, hx, hax⟩ := ListLemmas.forall₂_exists hright ha
    refine Or.inl ?_
    change better s r.price a.price
    rw [hr.price, hax.price]
    exact hpost x hx
  refine ⟨q₁ ++ r :: q₂, List.perm_middle, ?_, ?_, ?_⟩
  · rw [hpush]
    exact List.rel_append hleft (.cons hr hright)
  · simp only [List.map_append, List.map_cons, List.pairwise_append, List.pairwise_cons,
      List.mem_cons]
    refine ⟨ho₁, ⟨hafter, ho₂⟩, ?_⟩
    rintro a ha b (rfl | hb)
    · exact hbefore a ha
    · exact ho₁₂ a ha b hb
  · intro k hk
    simp only [List.map_append, List.map_cons, List.mem_append, List.mem_cons] at hk
    rcases hk with hk | rfl | hk
    · exact Nat.lt_trans (hpast k (Or.inl hk)) hclock
    · exact Nat.lt_of_le_of_lt (Nat.le_of_eq harr) hclock
    · exact Nat.lt_trans (hpast k (Or.inr hk)) hclock

/-! ## The matching loop -/

theorem Levels.WF.front {s : Side} {m : Levels P} (h : WF s m) {front : Order P}
    {tail : List (Order P)} (ho : orders m = front :: tail) :
    ∃ queue rest, m = (front.price, front :: queue) :: rest ∧ tail = queue ++ orders rest := by
  cases m with
  | nil => cases ho
  | cons e rest =>
    obtain ⟨p, dq⟩ := e
    cases dq with
    | nil => exact absurd rfl (h.nonempty _ List.mem_cons_self)
    | cons first queue =>
      simp only [orders_cons, List.cons_append, List.cons.injEq] at ho
      obtain ⟨rfl, rfl⟩ := ho
      exact ⟨queue, rest, by rw [h.keyed _ List.mem_cons_self first List.mem_cons_self], rfl⟩

/-- What matching reads of an incoming order besides its open quantity. -/
structure Describes (o incoming : Order P) : Prop where
  orderId : incoming.orderId = o.orderId
  side : incoming.side = o.side
  type : incoming.type = o.type
  price : incoming.price = o.price

theorem Describes.stopsAt {o incoming : Order P} (h : Describes o incoming) (p : P) :
    incoming.stopsAt p = o.stopsAt p := by
  unfold Order.stopsAt
  rw [h.type, h.side, h.price]

omit [LinearOrder P] in
theorem Describes.makeTrade {o incoming front : Order P} {r : Resting P}
    (h : Describes o incoming) (hr : Same r front) (clock : ℕ) :
    makeTrade incoming front (UInt64.ofNat clock) =
      trade o r (min incoming.remainingQuantity r.remaining) clock := by
  cases hside : o.side <;>
    simp [TradingSystem.makeTrade, trade, fillQuantity, h.side, hside, h.orderId, hr.id, hr.price,
      hr.remaining]

omit [LinearOrder P] in
theorem fillAll_zero (o : Order P) (clock : ℕ) (l : List (Resting P)) :
    fillAll o 0 clock l = ⟨[], 0, l⟩ := by
  cases l <;> simp [fillAll]

omit [LinearOrder P] in
theorem fillAll_filled {o : Order P} {unfilled : UInt64} {clock : ℕ} {r : Resting P}
    {rs : List (Resting P)} (hu : unfilled ≠ 0) (hr : r.remaining - min unfilled r.remaining = 0) :
    fillAll o unfilled clock (r :: rs) =
      { fillAll o (unfilled - min unfilled r.remaining) (clock + 1) rs with
        trades := trade o r (min unfilled r.remaining) clock ::
          (fillAll o (unfilled - min unfilled r.remaining) (clock + 1) rs).trades } := by
  simp only [fillAll, hu, hr, if_true, if_false]

omit [LinearOrder P] in
theorem fillAll_partly {o : Order P} {unfilled : UInt64} {clock : ℕ} {r : Resting P}
    {rs : List (Resting P)} (hu : unfilled ≠ 0) (hr : r.remaining - min unfilled r.remaining ≠ 0)
    (hzero : unfilled - min unfilled r.remaining = 0) :
    fillAll o unfilled clock (r :: rs) =
      ⟨[trade o r (min unfilled r.remaining) clock], 0,
        { r with remaining := r.remaining - min unfilled r.remaining } :: rs⟩ := by
  simp only [fillAll, hu, hr, hzero, fillAll_zero, if_false]

omit [LinearOrder P] in
/-- Orders that are met keep their place among those left. -/
theorem fillAll_keys (o : Order P) (unfilled : UInt64) (clock : ℕ) (l : List (Resting P)) :
    ((fillAll o unfilled clock l).left.map Resting.key).Sublist (l.map Resting.key) := by
  induction l generalizing unfilled clock with
  | nil => exact List.Sublist.refl _
  | cons r rs ih =>
    simp only [fillAll]
    split
    · exact List.Sublist.refl _
    · simp only
      split
      · exact (ih _ _).trans (List.sublist_cons_self _ _)
      · exact (ih _ _).cons_cons _

/-- The loop went from `s` to `t` as the reference's greedy fill does. -/
structure Filled (s t : MatchState P) (clock : ℕ) (out : Outcome P) (beyond : List (Resting P)) :
    Prop where
  trades : t.trades = s.trades ++ out.trades
  unfilled : t.incoming.remainingQuantity = out.unfilled
  left : List.Forall₂ Same (out.left ++ beyond) (Levels.orders t.opposite)
  lastPrice : t.lastPrice = (out.trades.getLast?.map (·.price)).or s.lastPrice
  clock : t.nextTimestamp = UInt64.ofNat (clock + out.trades.length)

omit [LinearOrder P] in
theorem Filled.none {s : MatchState P} {clock : ℕ} {q beyond : List (Resting P)}
    (hq : List.Forall₂ Same (q ++ beyond) (Levels.orders s.opposite))
    (hclock : s.nextTimestamp = UInt64.ofNat clock) :
    Filled s s clock ⟨[], s.incoming.remainingQuantity, q⟩ beyond :=
  ⟨by simp, rfl, hq, by simp, by simpa using hclock⟩

theorem ofNat_succ (clock : ℕ) : UInt64.ofNat clock + 1 = UInt64.ofNat (clock + 1) := by
  rw [UInt64.ofNat_add]
  rfl

omit [LinearOrder P] in
/-- One round of the loop in front of what the later rounds did. -/
theorem Filled.round {s u : MatchState P} {p : P} {front : Order P} {queue : List (Order P)}
    {rest : Levels P} {o : Order P} {r : Resting P} {clock : ℕ} {out : Outcome P}
    {beyond : List (Resting P)} (ho : Describes o s.incoming) (hr : Same r front)
    (hclock : s.nextTimestamp = UInt64.ofNat clock)
    (h : Filled (s.fill p front queue rest) u (clock + 1) out beyond) :
    Filled s u clock
      { out with
        trades := trade o r (min s.incoming.remainingQuantity r.remaining) clock :: out.trades }
      beyond := by
  constructor
  · rw [h.trades]
    simp [MatchState.fill, hclock, ho.makeTrade hr]
  · exact h.unfilled
  · exact h.left
  · rw [h.lastPrice]
    cases hlast : out.trades.getLast? <;>
      simp [List.getLast?_cons, hlast, MatchState.fill, trade, hr.price]
  · rw [h.clock]
    simp only [List.length_cons]
    congr 1
    omega

/-- A filled order stops the loop and the greedy fill alike. -/
theorem Filled.exhausted (o : Order P) {s : MatchState P} {clock : ℕ}
    {q beyond : List (Resting P)} (hzero : s.incoming.remainingQuantity = 0)
    (hq : List.Forall₂ Same (q ++ beyond) (Levels.orders s.opposite))
    (hclock : s.nextTimestamp = UInt64.ofNat clock) :
    Filled s (matchAgainst s) clock (fillAll o s.incoming.remainingQuantity clock q) beyond := by
  have hdone := Filled.none hq hclock
  rw [hzero, ← fillAll_zero o clock] at hdone
  rwa [matchAgainst_of_filled hzero, hzero]

omit [LinearOrder P] in
/-- The round in which the front order is filled, with the loop going on
behind it. -/
theorem Filled.front_filled {s u : MatchState P} {o front : Order P} {queue : List (Order P)}
    {rest : Levels P} {r : Resting P} {clock : ℕ} {crossed beyond : List (Resting P)}
    (ho : Describes o s.incoming) (hr : Same r front)
    (hclock : s.nextTimestamp = UInt64.ofNat clock) (hopen : s.incoming.remainingQuantity ≠ 0)
    (hleft : (front.take (fillQuantity s.incoming front)).remainingQuantity = 0)
    (h : Filled (s.fill front.price front queue rest) u (clock + 1)
      (fillAll o (s.fill front.price front queue rest).incoming.remainingQuantity (clock + 1)
        crossed) beyond) :
    Filled s u clock (fillAll o s.incoming.remainingQuantity clock (r :: crossed)) beyond := by
  have hfill : fillQuantity s.incoming front = min s.incoming.remainingQuantity r.remaining := by
    rw [fillQuantity, hr.remaining]
  have hunfilled : (s.fill front.price front queue rest).incoming.remainingQuantity =
      s.incoming.remainingQuantity - min s.incoming.remainingQuantity r.remaining := by
    rw [← hfill]
    rfl
  simp only [Order.take, hfill, ← hr.remaining] at hleft
  rw [hunfilled] at h
  rw [fillAll_filled hopen hleft]
  exact h.round ho hr hclock

/-- The round that leaves a remainder of the front order fills the incoming
one and is the last. -/
theorem Filled.front_left {s : MatchState P} {o front : Order P} {queue : List (Order P)}
    {rest : Levels P} {r : Resting P} {clock : ℕ} {crossed beyond : List (Resting P)}
    (ho : Describes o s.incoming) (hr : Same r front)
    (htail : List.Forall₂ Same (crossed ++ beyond) (queue ++ Levels.orders rest))
    (hclock : s.nextTimestamp = UInt64.ofNat clock)
    (hclock' : (s.fill front.price front queue rest).nextTimestamp = UInt64.ofNat (clock + 1))
    (hopen : s.incoming.remainingQuantity ≠ 0)
    (hleft : (front.take (fillQuantity s.incoming front)).remainingQuantity ≠ 0) :
    Filled s (matchAgainst (s.fill front.price front queue rest)) clock
      (fillAll o s.incoming.remainingQuantity clock (r :: crossed)) beyond := by
  have hfill : fillQuantity s.incoming front = min s.incoming.remainingQuantity r.remaining := by
    rw [fillQuantity, hr.remaining]
  have hzero : (s.fill front.price front queue rest).incoming.remainingQuantity = 0 :=
    incoming_filled_of_front_left hleft
  have hrest : List.Forall₂ Same
      (({ r with remaining := r.remaining - fillQuantity s.incoming front } :: crossed) ++ beyond)
      (Levels.orders (s.fill front.price front queue rest).opposite) := by
    rw [orders_fill, remainder, if_neg hleft, List.cons_append]
    exact .cons ⟨hr.id, hr.side, hr.price, by rw [hr.remaining]; rfl⟩ htail
  have hdone := (Filled.exhausted o hzero hrest hclock').round ho hr hclock
  have hspent : s.incoming.remainingQuantity - min s.incoming.remainingQuantity r.remaining = 0 := by
    rw [← hfill]
    exact hzero
  simp only [Order.take, hfill, ← hr.remaining] at hleft
  rw [fillAll_partly hopen hleft hspent]
  rwa [hzero, fillAll_zero, hfill] at hdone

/-- The loop meets the crossed orders one by one and stops where the greedy
fill of them stops. -/
theorem matchAgainst_filled {o : Order P} {q : List (Resting P)} {s : MatchState P} {clock : ℕ}
    (ho : Describes o s.incoming) (hwf : Levels.WF o.side.opposite s.opposite)
    (hq : List.Forall₂ Same q (Levels.orders s.opposite))
    (hclock : s.nextTimestamp = UInt64.ofNat clock) :
    Filled s (matchAgainst s) clock
      (fillAll o s.incoming.remainingQuantity clock (q.takeWhile (crosses o)))
      (q.dropWhile (crosses o)) := by
  induction q generalizing s clock with
  | nil =>
    have hnone : matchStep s = none := by
      apply matchStep_eq_none
      intro p dq rest hopp _
      rw [hopp, Levels.orders_cons] at hq
      have hempty := List.forall₂_nil_left_iff.mp hq
      exact absurd (List.append_eq_nil_iff.mp hempty).1 (hwf.nonempty (p, dq) (by simp [hopp]))
    rw [matchAgainst_done hnone]
    exact Filled.none hq hclock
  | cons r rs ih =>
    obtain ⟨front, tail, hr, htail, horders⟩ := List.forall₂_cons_left_iff.mp hq
    obtain ⟨queue, rest, hopp, rfl⟩ := hwf.front horders
    have hstop : s.incoming.stopsAt front.price = !crosses o r := by
      rw [ho.stopsAt, ← hr.price, crosses_eq_not_stopsAt, Bool.not_not]
    by_cases hzero : s.incoming.remainingQuantity = 0
    · exact Filled.exhausted o hzero (by rwa [List.takeWhile_append_dropWhile]) hclock
    cases hcross : crosses o r with
    | false =>
      have hnone : matchStep s = none := by
        apply matchStep_eq_none
        intro p dq rest' hopp' _
        rw [hopp] at hopp'
        cases hopp'
        rw [hstop, hcross]
        rfl
      rw [matchAgainst_done hnone]
      simp only [List.takeWhile_cons, List.dropWhile_cons, hcross]
      exact Filled.none hq hclock
    | true =>
      rw [hcross] at hstop
      have hpos : 0 < s.incoming.remainingQuantity := UInt64.pos_iff_ne_zero.mpr hzero
      have hstep := matchStep_some.mpr ⟨_, front, queue, rest, hopp, hpos, hstop, rfl⟩
      have hclock' : (s.fill front.price front queue rest).nextTimestamp =
          UInt64.ofNat (clock + 1) := by
        rw [← ofNat_succ, ← hclock]
        rfl
      rw [matchAgainst_step hstep, List.takeWhile_cons_of_pos hcross,
        List.dropWhile_cons_of_pos hcross]
      by_cases hleft : (front.take (fillQuantity s.incoming front)).remainingQuantity = 0
      · have hrest : List.Forall₂ Same rs
            (Levels.orders (s.fill front.price front queue rest).opposite) := by
          rwa [orders_fill, remainder, if_pos hleft]
        have hdone := ih (s := s.fill front.price front queue rest)
          ⟨ho.orderId, ho.side, ho.type, ho.price⟩ (WF_fill (hopp ▸ hwf)) hrest hclock'
        exact hdone.front_filled ho hr hclock hzero hleft
      · exact Filled.front_left ho hr (by rwa [List.takeWhile_append_dropWhile]) hclock hclock'
          hzero hleft

end TradingSystem
