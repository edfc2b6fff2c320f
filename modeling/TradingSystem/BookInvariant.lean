import TradingSystem.MatchLoop

/-!
# The representation invariant of the book, and no crossed book

`Levels.WF` is what every operation keeps of one side: levels in comparator
order, none of them empty, each order on the level of its price. The book is
uncrossed because a limit remainder rests only after the loop has left
through an exit at which no level of the other side is within its limit.
-/

namespace TradingSystem

open OrderedMap

variable {P : Type}

/-- An order as it may rest on side `s`. -/
structure Order.Rests (s : Side) (o : Order P) : Prop where
  side : o.side = s
  type : o.type = .limit
  positive : 0 < o.remainingQuantity
  bounded : o.remainingQuantity ≤ o.quantity

section
variable [LT P]

theorem better_opposite {s : Side} {a b : P} : better s.opposite a b ↔ better s b a := by
  cases s <;> rfl

structure Levels.WF (s : Side) (m : Levels P) : Prop where
  sorted : Sorted (better s) m
  nonempty : ∀ e ∈ m, e.2 ≠ []
  keyed : ∀ e ∈ m, ∀ o ∈ e.2, o.price = e.1
  rests : ∀ e ∈ m, ∀ o ∈ e.2, o.Rests s

namespace Levels

theorem WF.nil (s : Side) : WF s ([] : Levels P) :=
  ⟨List.Pairwise.nil, by simp, by simp, by simp⟩

theorem WF.tail {s : Side} {e : P × List (Order P)} {m : Levels P} (h : WF s (e :: m)) :
    WF s m :=
  ⟨h.sorted.tail, fun x hx => h.nonempty x (List.mem_cons_of_mem _ hx),
    fun x hx => h.keyed x (List.mem_cons_of_mem _ hx),
    fun x hx => h.rests x (List.mem_cons_of_mem _ hx)⟩

/-- Replacing the deque of the first level by another one fit for its price. -/
theorem WF.set_head {s : Side} {p : P} {dq dq' : List (Order P)} {m : Levels P}
    (h : WF s ((p, dq) :: m)) (hne : dq' ≠ [])
    (hdq : ∀ o ∈ dq', o.price = p ∧ o.Rests s) : WF s ((p, dq') :: m) := by
  constructor
  · exact List.pairwise_cons.mpr (List.pairwise_cons.mp h.sorted)
  · rintro x (_ | ⟨_, hx⟩)
    · exact hne
    · exact h.tail.nonempty x hx
  · rintro x (_ | ⟨_, hx⟩) o ho
    · exact (hdq o ho).1
    · exact h.tail.keyed x hx o ho
  · rintro x (_ | ⟨_, hx⟩) o ho
    · exact (hdq o ho).2
    · exact h.tail.rests x hx o ho

end Levels

def OrderBook.WF (b : OrderBook P) : Prop := ∀ s, Levels.WF s (b.levels s)

theorem OrderBook.WF.empty : (OrderBook.empty : OrderBook P).WF := by
  intro s
  cases s <;> exact Levels.WF.nil _

/-- The first level after a round is fit for its price. -/
theorem WF_fill {s : MatchState P} {p : P} {front : Order P} {queue : List (Order P)}
    {rest : Levels P} {side : Side} (h : Levels.WF side ((p, front :: queue) :: rest)) :
    Levels.WF side (s.fill p front queue rest).opposite := by
  have hdq : ∀ o ∈ front :: queue, o.price = p ∧ o.Rests side := fun o ho =>
    ⟨h.keyed _ List.mem_cons_self o ho, h.rests _ List.mem_cons_self o ho⟩
  have hqueue : ∀ o ∈ queue, o.price = p ∧ o.Rests side := fun o ho =>
    hdq o (List.mem_cons_of_mem _ ho)
  simp only [MatchState.fill]
  split
  · split
    · exact h.tail
    · rename_i hq
      exact h.set_head (by simpa using hq) hqueue
  · rename_i hrem
    apply h.set_head (by simp)
    rintro o (_ | ⟨_, ho⟩)
    · obtain ⟨hp, hr⟩ := hdq front List.mem_cons_self
      refine ⟨hp, hr.side, hr.type, ?_, ?_⟩
      · exact UInt64.pos_iff_ne_zero.mpr hrem
      · have := toNat_take_front s.incoming front
        have := UInt64.le_iff_toNat_le.mp hr.bounded
        rw [UInt64.le_iff_toNat_le]
        simp only [Order.take_quantity]
        omega
    · exact hqueue o ho

variable [DecidableLT P]

theorem matchStep_WF {s t : MatchState P} {side : Side} (h : Levels.WF side s.opposite)
    (hstep : matchStep s = some t) : Levels.WF side t.opposite := by
  obtain ⟨p, front, queue, rest, hopp, -, -, rfl⟩ := matchStep_some.mp hstep
  exact WF_fill (hopp ▸ h)

namespace MatchingEngine

theorem matched_WF {e : MatchingEngine P} (h : e.book.WF) (o : Order P) :
    Levels.WF o.side.opposite (e.matched o).opposite :=
  matched_invariant (I := fun s => Levels.WF o.side.opposite s.opposite)
    (fun _ _ => matchStep_WF) (h o.side.opposite)

/-- The part of a limit order the loop leaves can rest. -/
theorem matched_rests (e : MatchingEngine P) (o : Order P)
    (hpos : 0 < (e.matched o).incoming.remainingQuantity) (ht : o.type = .limit) :
    (e.matched o).incoming.Rests o.side where
  side := e.matched_side o
  type := by rw [matched_type, ht]
  positive := hpos
  bounded := by rw [matched_quantity]; exact (e.matched_incoming o).1

theorem leave_WF {e : MatchingEngine P} (h : e.book.WF) (o : Order P) :
    (e.tick.leave (e.matched o)).book.WF :=
  leave_sides (h o.side) (matched_WF h o)

end MatchingEngine

end

section
variable [LT P] [IsStrictOrder P (· < ·)]

instance (s : Side) : IsStrictOrder P (better s) :=
  match s with
  | .buy => inferInstanceAs (IsStrictOrder P (Function.swap (· < ·)))
  | .sell => inferInstanceAs (IsStrictOrder P (· < ·))

theorem better_trans {s : Side} {a b c : P} (h₁ : better s a b) (h₂ : better s b c) :
    better s a c :=
  IsTrans.trans _ _ _ h₁ h₂

theorem better_irrefl (s : Side) (a : P) : ¬ better s a a := irrefl a

namespace Levels

variable [DecidableLT P] {s : Side} {m : Levels P}

/-- Changing the level a search ends at, or making a new one. -/
theorem WF.alter (h : WF s m) {p : P} {f : Option (List (Order P)) → Option (List (Order P))}
    (hnew : ∀ dq, f none = some dq → dq ≠ [] ∧ ∀ o ∈ dq, o.price = p ∧ o.Rests s)
    (hold : ∀ l ∈ m, ¬ better s l.1 p → ¬ better s p l.1 → ∀ dq, f (some l.2) = some dq →
      dq ≠ [] ∧ ∀ o ∈ dq, o.price = l.1 ∧ o.Rests s) :
    WF s (alter (better s) p f m) := by
  have key : ∀ l ∈ OrderedMap.alter (better s) p f m,
      l.2 ≠ [] ∧ ∀ o ∈ l.2, o.price = l.1 ∧ o.Rests s := by
    intro l hl
    rcases mem_alter_cases hl with hm | ⟨hkey, hdq⟩ | ⟨dq, hm, hb, ha, hdq⟩
    · exact ⟨h.nonempty l hm, fun o ho => ⟨h.keyed l hm o ho, h.rests l hm o ho⟩⟩
    · rw [hkey]
      exact hnew l.2 hdq
    · exact hold (l.1, dq) hm hb ha l.2 hdq
  exact ⟨h.sorted.alter p f, fun l hl => (key l hl).1, fun l hl o ho => ((key l hl).2 o ho).1,
    fun l hl o ho => ((key l hl).2 o ho).2⟩

/-- The order joins a level of its own price, or there is none it could join. -/
theorem WF.pushBack (h : WF s m) {o : Order P} (ho : o.Rests s)
    (hkey : ∀ l ∈ m, ¬ better s l.1 o.price → ¬ better s o.price l.1 → l.1 = o.price) :
    WF s (OrderBook.pushBack s o m) := by
  apply h.alter
  · rintro dq ⟨⟩
    exact ⟨by simp, by simp [ho]⟩
  · rintro l hl hb ha dq ⟨⟩
    refine ⟨by simp, fun x hx => ?_⟩
    rcases List.mem_append.mp hx with hx | hx
    · exact ⟨h.keyed l hl x hx, h.rests l hl x hx⟩
    · rw [List.mem_singleton.mp hx]
      exact ⟨(hkey l hl hb ha).symm, ho⟩

theorem WF.eraseOrder (h : WF s m) (p : P) (id : UInt64) :
    WF s (OrderBook.eraseOrder s p id m) := by
  apply h.alter
  · intro dq hdq
    cases hdq
  · intro l hl _ _ dq hdq
    obtain ⟨rfl, hne⟩ := OrderBook.eraseFrom_some (h.nonempty l hl) hdq
    refine ⟨hne, fun x hx => ?_⟩
    have hx := List.mem_of_mem_eraseP hx
    exact ⟨h.keyed l hl x hx, h.rests l hl x hx⟩

end Levels

theorem MatchingEngine.cancelOrder_WF [DecidableLT P] {e : MatchingEngine P} (h : e.book.WF)
    (id : UInt64) : (e.cancelOrder id).1.book.WF :=
  cancelOrder_sides h fun s p => (h s).eraseOrder p id

end

/-! ## Prices in a linear order -/

variable [LinearOrder P]

instance (s : Side) : IsStrictTotalOrder P (better s) :=
  match s with
  | .buy => inferInstanceAs (IsStrictTotalOrder P (· > ·))
  | .sell => inferInstanceAs (IsStrictTotalOrder P (· < ·))

namespace Levels

theorem WF.found {s : Side} {m : Levels P} (h : WF s m) {p : P} {dq : List (Order P)}
    (hf : find (better s) p m = some dq) :
    dq ≠ [] ∧ ∀ o ∈ dq, o.price = p ∧ o.Rests s := by
  have hm := h.sorted.find_iff.mp hf
  exact ⟨h.nonempty _ hm, fun o ho => ⟨h.keyed _ hm o ho, h.rests _ hm o ho⟩⟩

end Levels

/-- On a well-formed side the loop leaves a remainder only where no level is
within the limit of the incoming order. -/
theorem exit_beyond {s : MatchState P} {side : Side} (h : Levels.WF side s.opposite)
    (hside : s.incoming.side.opposite = side) (hexit : matchStep s = none)
    (hpos : 0 < s.incoming.remainingQuantity) :
    ∀ e ∈ s.opposite, s.incoming.type = .limit ∧ better side s.incoming.price e.1 := by
  intro e he
  rcases matchStep_none hexit with h0 | hnil | ⟨p, dq, rest, hopp, hstop | hdq⟩
  · exact absurd hpos (not_pos_iff_eq_zero.mpr h0)
  · rw [hnil] at he; cases he
  · obtain ⟨hlimit, hbeyond⟩ := Order.stopsAt_iff.mp hstop
    rw [hside] at hbeyond
    refine ⟨hlimit, ?_⟩
    have hsorted := h.sorted
    rw [hopp] at he hsorted
    rcases List.mem_cons.mp he with rfl | he
    · exact hbeyond
    · exact better_trans hbeyond ((List.pairwise_cons.mp hsorted).1 e he)
  · exact absurd hdq (h.nonempty (p, dq) (by simp [hopp]))

/-- No level is at or past a level of the other side. -/
def OrderBook.Uncrossed (b : OrderBook P) : Prop :=
  ∀ s, ∀ a ∈ b.levels s, ∀ c ∈ b.levels s.opposite, better s.opposite a.1 c.1

theorem OrderBook.Uncrossed.empty : (OrderBook.empty : OrderBook P).Uncrossed := by
  intro s a ha
  cases s <;> cases ha

/-- It is enough that the levels of one side are before those of the other. -/
theorem OrderBook.uncrossed_of_side {b : OrderBook P} (s : Side)
    (h : ∀ a ∈ b.levels s, ∀ c ∈ b.levels s.opposite, better s.opposite a.1 c.1) :
    b.Uncrossed := by
  intro t a ha c hc
  rcases s.eq_or_eq_opposite t with rfl | rfl
  · exact h a ha c hc
  · rw [Side.opposite_opposite] at hc
    rw [better_opposite]
    exact h c hc a ha

namespace MatchingEngine

theorem submit_WF {e : MatchingEngine P} (h : e.book.WF) (o : Order P) :
    ((e.tick.leave (e.matched o)).rest (e.matched o).incoming).book.WF := by
  refine rest_sides (leave_WF h o) fun hpos ht => (leave_WF h o _).pushBack ?_ ?_
  · rw [matched_side]
    exact matched_rests e o hpos (by simpa using ht)
  · intro l _ hb ha
    exact ((trichotomous (r := better _) _ _).resolve_left hb).resolve_right ha

/-! ## No crossed book -/

theorem leave_uncrossed {e : MatchingEngine P} (h : e.book.Uncrossed) (o : Order P) :
    (e.tick.leave (e.matched o)).book.Uncrossed := by
  apply OrderBook.uncrossed_of_side o.side
  obtain ⟨hown, hopp⟩ := e.leave_matched_levels o
  rw [hown, hopp]
  intro a ha c hc
  obtain ⟨c', hc', hkey⟩ := matched_keys e o hc
  rw [← hkey]
  exact h o.side a ha c' hc'

/-- A resting remainder is priced before every level the loop left. -/
theorem submit_uncrossed {e : MatchingEngine P} (hwf : e.book.WF) (h : e.book.Uncrossed)
    (o : Order P) :
    ((e.tick.leave (e.matched o)).rest (e.matched o).incoming).book.Uncrossed := by
  have hleave := leave_uncrossed h o
  unfold rest
  split
  · rename_i hr
    have hbeyond := exit_beyond (matched_WF hwf o) (by rw [matched_side]) (e.matched_exit o) hr.1
    have hopp := leave_levels_opposite e.tick (e.matched o)
    apply OrderBook.uncrossed_of_side (e.matched o).incoming.side
    rw [OrderBook.addRestingOrder_levels, OrderBook.addRestingOrder_levels_opposite]
    intro a ha c hc
    rcases OrderBook.pushBack_keys ha with ha | ⟨dq, ha⟩
    · rw [ha]
      rw [hopp] at hc
      have := (hbeyond c hc).2
      rwa [matched_side]
    · exact hleave _ (a.1, dq) ha c hc
  · exact hleave

theorem cancelOrder_keys (e : MatchingEngine P) (id : UInt64) (s : Side) :
    ∀ l ∈ (e.cancelOrder id).1.book.levels s, ∃ l' ∈ e.book.levels s, l'.1 = l.1 := by
  refine cancelOrder_sides (Q := fun s m => ∀ l ∈ m, ∃ l' ∈ e.book.levels s, l'.1 = l.1)
    (fun _ l hl => ⟨l, hl, rfl⟩) (fun s p l hl => ?_) s
  obtain ⟨dq, hdq⟩ := OrderBook.eraseOrder_keys hl
  exact ⟨(l.1, dq), hdq, rfl⟩

theorem cancelOrder_uncrossed {e : MatchingEngine P} (h : e.book.Uncrossed) (id : UInt64) :
    (e.cancelOrder id).1.book.Uncrossed := by
  intro s a ha c hc
  obtain ⟨a', ha', hka⟩ := e.cancelOrder_keys id s a ha
  obtain ⟨c', hc', hkc⟩ := e.cancelOrder_keys id s.opposite c hc
  rw [← hka, ← hkc]
  exact h s a' ha' c' hc'

variable [PriceArith P]

/-- Every book a run from a fresh engine reaches is well formed. -/
theorem run_WF (band : P) (calls : List (Call P)) :
    ((new band).run calls).1.book.WF :=
  run_invariant (I := fun e => e.book.WF) (fun _ _ h _ => h) (fun _ o h _ => submit_WF h o)
    (fun _ id h => cancelOrder_WF h id) OrderBook.WF.empty calls

theorem run_uncrossed (band : P) (calls : List (Call P)) :
    ((new band).run calls).1.book.Uncrossed := by
  have h := run_invariant (I := fun e => e.book.WF ∧ e.book.Uncrossed)
    (fun _ _ h _ => h) (fun _ o h _ => ⟨submit_WF h.1 o, submit_uncrossed h.1 h.2 o⟩)
    (fun _ id h => ⟨cancelOrder_WF h.1 id, cancelOrder_uncrossed h.2 id⟩)
    (e := new band) ⟨OrderBook.WF.empty, OrderBook.Uncrossed.empty⟩ calls
  exact h.2

/-- **No crossed book.** After any calls on a fresh engine, whatever their
sides, types, prices, quantities and ids, the best bid is below the best ask. -/
theorem best_bid_lt_best_ask (band : P) (calls : List (Call P)) {bid ask : P}
    (hbid : ((new band).run calls).1.book.bestBid = some bid)
    (hask : ((new band).run calls).1.book.bestAsk = some ask) : bid < ask := by
  obtain ⟨b, hb, rfl⟩ := Option.map_eq_some_iff.mp hbid
  obtain ⟨a, ha, rfl⟩ := Option.map_eq_some_iff.mp hask
  exact run_uncrossed band calls .buy b (List.mem_of_mem_head? hb) a (List.mem_of_mem_head? ha)

/-- A buy that trades through a part of the best ask leaves 99 bid, 100 asked. -/
theorem best_bid_lt_best_ask_after_trade :
    ((new (10 : ℚ)).run [.submit (Order.make 1 .sell .limit 100 10),
      .submit (Order.make 2 .buy .limit 99 10),
      .submit (Order.make 3 .buy .limit 100 5)]).1.book.bestBid = some 99 ∧ (99 : ℚ) < 100 :=
  ⟨rfl, best_bid_lt_best_ask 10 [.submit (Order.make 1 .sell .limit 100 10),
    .submit (Order.make 2 .buy .limit 99 10), .submit (Order.make 3 .buy .limit 100 5)] rfl rfl⟩

end MatchingEngine

end TradingSystem
