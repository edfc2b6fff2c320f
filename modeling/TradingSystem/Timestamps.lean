import TradingSystem.Conservation

/-!
# Timestamps and the whole invariant of the engine

`next_timestamp_` starts at 1 and is drawn once for every submitted order,
rejected or not, and once for every trade. As long as it has not come round,
timestamps tell the arrival order: orders of one level carry increasing
timestamps, and no two orders or trades share one.
-/

namespace TradingSystem

open OrderedMap

/-- `n` draws of a counter that stands at `t`. -/
def stampsFrom (t : UInt64) (n : ℕ) : List UInt64 :=
  (List.range n).map fun i => t + UInt64.ofNat i

theorem stampsFrom_succ (t : UInt64) (n : ℕ) :
    stampsFrom t (n + 1) = stampsFrom t n ++ [t + UInt64.ofNat n] := by
  simp [stampsFrom, List.range_succ]

theorem stampsFrom_add (t : UInt64) (m n : ℕ) :
    stampsFrom t (m + n) = stampsFrom t m ++ stampsFrom (t + UInt64.ofNat m) n := by
  induction n with
  | zero => simp [stampsFrom]
  | succ n ih =>
    rw [← Nat.add_assoc, stampsFrom_succ, stampsFrom_succ, ih, List.append_assoc,
      UInt64.ofNat_add, UInt64.add_assoc]

theorem toNat_draw {i n : ℕ} (hi : i < n) (hn : n < 2 ^ 64) : (1 + UInt64.ofNat i).toNat = 1 + i := by
  rw [UInt64.toNat_add, UInt64.toNat_ofNat_of_lt' (by simp only [UInt64.size]; omega)]
  exact Nat.mod_eq_of_lt (by simp only [UInt64.toNat_one]; omega)

theorem stampsFrom_nodup {n : ℕ} (hn : n < 2 ^ 64) : (stampsFrom 1 n).Nodup := by
  refine List.Nodup.map_on ?_ List.nodup_range
  intro i hi j hj heq
  have hnat := congrArg UInt64.toNat heq
  rw [toNat_draw (List.mem_range.mp hi) hn, toNat_draw (List.mem_range.mp hj) hn] at hnat
  omega

/-- The counter is above all draws unless the last one made it come round. -/
theorem lt_next_of_mem_stampsFrom {n : ℕ} (hn : n + 1 < 2 ^ 64) {t : UInt64}
    (ht : t ∈ stampsFrom 1 n) : t < 1 + UInt64.ofNat n := by
  obtain ⟨i, hi, rfl⟩ := List.mem_map.mp ht
  have hlt := List.mem_range.mp hi
  rw [UInt64.lt_iff_toNat_lt, toNat_draw (Nat.lt_succ_of_lt hlt) hn, toNat_draw (Nat.lt_succ_self n) hn]
  omega

variable {P : Type}

namespace MatchingEngine

section
variable [LT P] [DecidableLT P] [PriceArith P]

/-- The timestamps a call gives out, in the order of its draws. -/
def drawn (e : MatchingEngine P) : Call P → List UInt64
  | .submit o => (e.stamp o).timestamp :: (e.call (.submit o)).2.trades.map Trade.timestamp
  | .cancel _ => []

/-- The timestamps given out by a whole run. -/
def issued (e : MatchingEngine P) : List (Call P) → List UInt64
  | [] => []
  | c :: calls => e.drawn c ++ (e.call c).1.issued calls

omit [PriceArith P] in
/-- Each round of the loop draws the timestamp of its trade. -/
theorem matched_stamps (e : MatchingEngine P) (o : Order P) :
    (e.matched o).trades.map Trade.timestamp =
        stampsFrom (e.nextTimestamp + 1) (e.matched o).trades.length ∧
      (e.matched o).nextTimestamp =
        e.nextTimestamp + 1 + UInt64.ofNat (e.matched o).trades.length := by
  refine matched_invariant (I := fun s => s.trades.map Trade.timestamp =
      stampsFrom (e.nextTimestamp + 1) s.trades.length ∧
    s.nextTimestamp = e.nextTimestamp + 1 + UInt64.ofNat s.trades.length) ?_ ⟨rfl, by simp [enter, tick]⟩
  rintro s t ⟨htrades, hnext⟩ hstep
  obtain ⟨p, front, queue, rest, -, -, -, rfl⟩ := matchStep_some.mp hstep
  constructor
  · simp [MatchState.fill, makeTrade, htrades, hnext, stampsFrom_succ]
  · simp [MatchState.fill, hnext, UInt64.ofNat_add, UInt64.add_assoc]

theorem drawn_eq (e : MatchingEngine P) (c : Call P) :
    e.drawn c = stampsFrom e.nextTimestamp (e.drawn c).length ∧
      (e.call c).1.nextTimestamp = e.nextTimestamp + UInt64.ofNat (e.drawn c).length := by
  cases c with
  | cancel id => exact ⟨rfl, by simp [drawn, call, cancelOrder]⟩
  | submit o =>
    have hone : stampsFrom e.nextTimestamp 1 = [e.nextTimestamp] := by simp [stampsFrom]
    cases ha : (e.collarCheck o).accepted with
    | false =>
      simp only [drawn, call, submitOrder_rejected ha, Reply.trades]
      exact ⟨hone.symm, by simp [tick]⟩
    | true =>
      obtain ⟨htrades, hnext⟩ := e.matched_stamps o
      simp only [drawn, call, submitOrder_accepted ha, Reply.trades, List.length_cons,
        List.length_map]
      constructor
      · rw [Nat.add_comm, stampsFrom_add, hone, htrades]
        simp [stamp]
      · rw [rest_nextTimestamp]
        simp only [leave, hnext]
        rw [UInt64.ofNat_add, UInt64.add_assoc, UInt64.add_comm (UInt64.ofNat _)]
        rfl

/-- A run gives out consecutive timestamps. -/
theorem issued_eq (e : MatchingEngine P) (calls : List (Call P)) :
    e.issued calls = stampsFrom e.nextTimestamp (e.issued calls).length ∧
      (e.run calls).1.nextTimestamp =
        e.nextTimestamp + UInt64.ofNat (e.issued calls).length := by
  induction calls generalizing e with
  | nil => exact ⟨rfl, by simp [issued, run]⟩
  | cons c calls ih =>
    obtain ⟨hdrawn, hnext⟩ := e.drawn_eq c
    obtain ⟨hissued, hlast⟩ := ih (e.call c).1
    rw [hnext] at hissued hlast
    constructor
    · simp only [issued, List.length_append]
      rw [stampsFrom_add, ← hdrawn, ← hissued]
    · rw [run_cons, hlast]
      simp only [issued, List.length_append, UInt64.ofNat_add, UInt64.add_assoc]

theorem call_lastPrice (e : MatchingEngine P) (c : Call P) :
    (e.call c).1.lastPrice =
      ((e.call c).2.trades.getLast?.map Trade.price).or e.lastPrice := by
  cases c with
  | cancel id => simp [call, cancelOrder, Reply.trades]
  | submit o =>
    cases ha : (e.collarCheck o).accepted with
    | false => simp [call, submitOrder_rejected ha, Reply.trades, tick]
    | true =>
      simp only [call, submitOrder_accepted ha, Reply.trades, rest_lastPrice]
      exact e.matched_lastPrice o

theorem run_lastPrice (e : MatchingEngine P) (calls : List (Call P)) :
    (e.run calls).1.lastPrice =
      (((e.run calls).2.flatMap Reply.trades).getLast?.map Trade.price).or e.lastPrice := by
  induction calls generalizing e with
  | nil => rfl
  | cons c calls ih =>
    rw [run_cons, ih, call_lastPrice, List.flatMap_cons, List.getLast?_append, Option.map_or,
      Option.or_assoc]

end

end MatchingEngine

/-! ## Timestamps within a level -/

/-- The timestamps of a deque from front to back: increasing, none above `n`. -/
structure Arrivals (n : ℕ) (ts : List UInt64) : Prop where
  increasing : ts.Pairwise (· < ·)
  bounded : ∀ t ∈ ts, t.toNat ≤ n

namespace Arrivals

variable {n : ℕ} {ts : List UInt64}

theorem sublist (h : Arrivals n ts) {ts' : List UInt64} (hsub : ts'.Sublist ts) : Arrivals n ts' :=
  ⟨h.increasing.sublist hsub, fun t ht => h.bounded t (hsub.subset ht)⟩

theorem mono (h : Arrivals n ts) {m : ℕ} (hle : n ≤ m) : Arrivals m ts :=
  ⟨h.increasing, fun t ht => Nat.le_trans (h.bounded t ht) hle⟩

theorem snoc (h : Arrivals n ts) {t : UInt64} (ht : t.toNat = n + 1) :
    Arrivals (n + 1) (ts ++ [t]) := by
  constructor
  · refine List.pairwise_append.mpr ⟨h.increasing, List.pairwise_singleton _ _, ?_⟩
    intro a ha b hb
    obtain rfl := List.mem_singleton.mp hb
    have := h.bounded a ha
    rw [UInt64.lt_iff_toNat_lt]
    omega
  · intro a ha
    rcases List.mem_append.mp ha with ha | ha
    · exact Nat.le_succ_of_le (h.bounded a ha)
    · obtain rfl := List.mem_singleton.mp ha
      exact Nat.le_of_eq ht

end Arrivals

variable [LinearOrder P]

/-- Every deque of a side is in the order of arrival. -/
def Levels.Dated (n : ℕ) (m : Levels P) : Prop := ∀ l ∈ m, Arrivals n (l.2.map Order.timestamp)

namespace Levels.Dated

variable {n : ℕ} {m : Levels P} {s : Side}

omit [LinearOrder P] in
theorem mono (h : m.Dated n) {k : ℕ} (hle : n ≤ k) : m.Dated k := fun l hl => (h l hl).mono hle

theorem alter (h : m.Dated n) (hwf : m.WF s) {p : P}
    {f : Option (List (Order P)) → Option (List (Order P))}
    (hf : ∀ dq, f (find (better s) p m) = some dq → Arrivals n (dq.map Order.timestamp)) :
    Levels.Dated n (OrderedMap.alter (better s) p f m) := by
  intro l hl
  rcases hwf.sorted.mem_alter.mp hl with ⟨-, hm⟩ | ⟨-, hm⟩
  · exact h l hm
  · exact hf l.2 hm

theorem found (h : m.Dated n) (hwf : m.WF s) {p : P} :
    Arrivals n (((find (better s) p m).getD []).map Order.timestamp) := by
  cases hfind : find (better s) p m with
  | none => exact ⟨List.Pairwise.nil, by simp⟩
  | some dq => exact h _ (hwf.sorted.find_iff.mp hfind)

/-- An order behind all others of its level. -/
theorem pushBack (h : m.Dated n) (hwf : m.WF s) {o : Order P} (ho : o.timestamp.toNat = n + 1) :
    Levels.Dated (n + 1) (OrderBook.pushBack s o m) := by
  refine (h.mono (Nat.le_succ n)).alter hwf ?_
  intro dq hdq
  obtain rfl := Option.some.inj hdq
  rw [List.map_append]
  exact (h.found hwf).snoc ho

theorem eraseOrder (h : m.Dated n) (hwf : m.WF s) (p : P) (id : UInt64) :
    Levels.Dated n (OrderBook.eraseOrder s p id m) := by
  refine h.alter hwf ?_
  intro dq hdq
  obtain ⟨dq₀, hfind, herase⟩ := Option.bind_eq_some_iff.mp hdq
  have hold := h.found hwf (p := p)
  rw [hfind] at hold
  obtain ⟨rfl, -⟩ := OrderBook.eraseFrom_some (hwf.found hfind).1 herase
  exact hold.sublist (List.eraseP_sublist.map _)

omit [LinearOrder P] in
/-- A round takes the front order off its deque, or leaves it there. -/
theorem fill {t : MatchState P} {p : P} {front : Order P} {queue : List (Order P)} {rest : Levels P}
    (h : Levels.Dated n ((p, front :: queue) :: rest)) :
    Levels.Dated n (t.fill p front queue rest).opposite := by
  have hfront : Arrivals n ((front :: queue).map Order.timestamp) := h _ List.mem_cons_self
  have hrest : Levels.Dated n rest := fun l hl => h l (List.mem_cons_of_mem _ hl)
  simp only [MatchState.fill]
  split
  · split
    · exact hrest
    · rintro l (_ | ⟨_, hl⟩)
      · exact hfront.sublist (List.sublist_cons_self _ _)
      · exact hrest l hl
  · rintro l (_ | ⟨_, hl⟩)
    · exact hfront
    · exact hrest l hl

end Levels.Dated

namespace MatchingEngine

/-- The engine after `n` draws. -/
structure Dated (n : ℕ) (e : MatchingEngine P) : Prop where
  wf : e.book.WF
  next : e.nextTimestamp = 1 + UInt64.ofNat n
  levels : ∀ s, (e.book.levels s).Dated n

namespace Dated

variable {n : ℕ} {e : MatchingEngine P}

theorem matched (h : Dated n e) (o : Order P) : (e.matched o).opposite.Dated n := by
  refine matched_invariant (I := fun s => s.opposite.Dated n) ?_ (h.levels o.side.opposite)
  intro s t hs hstep
  obtain ⟨p, front, queue, rest, hopp, -, -, rfl⟩ := matchStep_some.mp hstep
  exact Levels.Dated.fill (hopp ▸ hs)

theorem leave (h : Dated n e) (o : Order P) (s : Side) :
    ((e.tick.leave (e.matched o)).book.levels s).Dated n :=
  leave_sides (Q := fun _ m => m.Dated n) (h.levels o.side) (h.matched o) s

/-- The remainder of an order arrives behind everything that rests. -/
theorem rest (h : Dated n e) (o : Order P) (hn : n + 1 < 2 ^ 64) (s : Side) :
    (((e.tick.leave (e.matched o)).rest (e.matched o).incoming).book.levels s).Dated (n + 1) := by
  have hstamp : (e.matched o).incoming.timestamp.toNat = n + 1 := by
    rw [(e.matched_incoming o).2]
    simp only [stamp, h.next]
    rw [toNat_draw (Nat.lt_succ_self n) hn, Nat.add_comm]
  exact rest_sides (Q := fun _ m => m.Dated (n + 1))
    (fun s => (h.leave o s).mono (Nat.le_succ n))
    (fun _ _ => (h.leave o _).pushBack (leave_WF h.wf o _) hstamp) s

theorem cancel (h : Dated n e) (id : UInt64) (s : Side) :
    ((e.cancelOrder id).1.book.levels s).Dated n :=
  cancelOrder_sides (Q := fun _ m => m.Dated n) h.levels
    (fun s p => (h.levels s).eraseOrder (h.wf s) p id) s

variable [PriceArith P]

theorem call (h : Dated n e) (c : Call P) (hn : n + (e.drawn c).length < 2 ^ 64) :
    Dated (n + (e.drawn c).length) (e.call c).1 := by
  have hnext := (e.drawn_eq c).2
  rw [h.next, UInt64.add_assoc, ← UInt64.ofNat_add] at hnext
  refine ⟨call_WF h.wf c, hnext, ?_⟩
  intro s
  cases c with
  | cancel id => exact h.cancel id s
  | submit o =>
    simp only [drawn, List.length_cons] at hn ⊢
    cases ha : (e.collarCheck o).accepted with
    | false =>
      simp only [MatchingEngine.call, submitOrder_rejected ha]
      exact (h.levels s).mono (by omega)
    | true =>
      simp only [MatchingEngine.call, submitOrder_accepted ha] at hn ⊢
      exact (h.rest o (by omega) s).mono (by omega)

theorem run (h : Dated n e) (calls : List (Call P)) (hn : n + (e.issued calls).length < 2 ^ 64) :
    Dated (n + (e.issued calls).length) (e.run calls).1 := by
  induction calls generalizing n e with
  | nil => exact h
  | cons c calls ih =>
    simp only [issued, List.length_append, ← Nat.add_assoc] at hn ⊢
    exact ih (h.call c (by omega)) hn

end Dated

variable [PriceArith P]

theorem new_dated (band : P) : Dated 0 (new band) :=
  ⟨OrderBook.WF.empty, rfl, fun s => by cases s <;> exact fun l hl => by cases hl⟩

/-- The representation invariant of an engine that has given out the
timestamps `stamps` and emitted `trades`. -/
structure Represents (e : MatchingEngine P) (stamps : List UInt64) (trades : List (Trade P)) :
    Prop where
  nonempty : ∀ s, ∀ l ∈ e.book.levels s, l.2 ≠ []
  stored : ∀ s, ∀ l ∈ e.book.levels s, ∀ o ∈ l.2, o.price = l.1 ∧ o.Rests s
  fifo : ∀ s, ∀ l ∈ e.book.levels s, l.2.Pairwise fun a b => a.timestamp < b.timestamp
  /-- In the next call of `match_against`, too, no deque is empty. -/
  front : ∀ o, ∀ l ∈ (e.matched o).opposite, l.2 ≠ []
  distinct : stamps.Nodup
  /-- The counter has come round when 2^64 - 1 timestamps are out. -/
  below : stamps.length + 1 < 2 ^ 64 → ∀ t ∈ stamps, t < e.nextTimestamp
  lastPrice : e.lastPrice = trades.getLast?.map Trade.price

/-- **The engine's representation invariant.** After any calls on a fresh
engine that give out fewer than 2^64 timestamps. -/
theorem run_represents (band : P) (calls : List (Call P))
    (h : ((new band).issued calls).length < 2 ^ 64) :
    ((new band).run calls).1.Represents ((new band).issued calls)
      (((new band).run calls).2.flatMap Reply.trades) := by
  have hdated := (new_dated band).run calls (by omega)
  obtain ⟨hissued, hnext⟩ := (new band).issued_eq calls
  refine ⟨fun s => (hdated.wf s).nonempty, ?_, ?_, ?_, ?_, ?_, ?_⟩
  · exact fun s l hl o ho => ⟨(hdated.wf s).keyed l hl o ho, (hdated.wf s).rests l hl o ho⟩
  · exact fun s l hl => List.pairwise_map.mp (hdated.levels s l hl).increasing
  · exact fun o => (matched_WF hdated.wf o).nonempty
  · rw [hissued]
    exact stampsFrom_nodup h
  · intro hlt t ht
    rw [hissued] at ht
    rw [hnext]
    exact lt_next_of_mem_stampsFrom hlt ht
  · rw [run_lastPrice]
    exact Option.or_none

/-- Two sells on one level, and a buy that fills the first and part of the second. -/
def twoSells : List (Call ℚ) :=
  [.submit (Order.make 1 .sell .limit 100 10), .submit (Order.make 2 .sell .limit 100 10),
    .submit (Order.make 3 .buy .limit 100 15)]

theorem run_represents_two_sells :
    (new (10 : ℚ)).issued twoSells = [1, 2, 3, 4, 5] ∧
      ((new (10 : ℚ)).run twoSells).1.Represents ((new 10).issued twoSells)
        (((new 10).run twoSells).2.flatMap Reply.trades) :=
  ⟨by decide +kernel, run_represents 10 twoSells (by decide +kernel)⟩

/-- An order without quantity draws its own timestamp only. -/
theorem issued_replicate (e : MatchingEngine P) {o : Order P} (hm : o.type = .market)
    (hq : o.quantity = 0) (n : ℕ) :
    (e.issued (List.replicate n (.submit o))).length = n := by
  induction n generalizing e with
  | zero => rfl
  | succ n ih =>
    have hdrawn : (e.drawn (.submit o)).length = 1 := by
      simp [drawn, MatchingEngine.call, e.submitOrder_zero_market hm hq, Reply.trades]
    rw [List.replicate_succ, issued, List.length_append, hdrawn, ih, Nat.add_comm]

/-- After 2^64 - 1 timestamps the counter stands at 0, below all of them. -/
theorem timestamp_wraps :
    ∃ calls : List (Call ℚ), ((new 10).issued calls).length < 2 ^ 64 ∧
      ∃ t ∈ (new 10).issued calls, ¬ t < ((new 10).run calls).1.nextTimestamp := by
  have hlen := issued_replicate (new (10 : ℚ)) (o := Order.make 1 .buy .market 0 0) rfl rfl
    (2 ^ 64 - 1)
  generalize List.replicate (2 ^ 64 - 1) (Call.submit (Order.make 1 .buy .market (0 : ℚ) 0)) =
    calls at hlen
  obtain ⟨hissued, hnext⟩ := (new (10 : ℚ)).issued_eq calls
  rw [hlen] at hissued hnext
  refine ⟨calls, by rw [hlen]; omega, 1, ?_, ?_⟩
  · rw [hissued]
    exact List.mem_map.mpr ⟨0, List.mem_range.mpr (by omega), rfl⟩
  · rw [hnext]
    decide

end MatchingEngine

end TradingSystem
