import TradingSystem.Conservation

/-!
# A book with an order hidden

Two runs are compared: one with an order submitted and later cancelled, one
without. While the order is in the book it may stand in front of others and
on a level of its own, so the books differ. `Levels.view` hides it, and the
timestamps, which it shifts. As long as no trade names the order the matching
loops of the two runs make the same rounds and stop at the same place.
-/

namespace TradingSystem

open OrderedMap

section
variable {P : Type}

/-! ## Up to timestamps -/

def Order.untimed (o : Order P) : Order P := { o with timestamp := 0 }

def Trade.untimed (t : Trade P) : Trade P := { t with timestamp := 0 }

def SubmitResult.untimed : SubmitResult P → SubmitResult P
  | .trades ts => .trades (ts.map Trade.untimed)
  | .rejection r => .rejection r

def Reply.untimed : Reply P → Reply P
  | .submitted r => .submitted r.untimed
  | .cancelled found => .cancelled found

def Levels.untimed (m : Levels P) : Levels P := m.map fun l => (l.1, l.2.map Order.untimed)

def OrderBook.untimed (b : OrderBook P) : OrderBook P where
  bids := Levels.untimed b.bids
  asks := Levels.untimed b.asks
  cancelIndex := b.cancelIndex

/-- The id a call mentions. -/
def Call.id : Call P → UInt64
  | .submit o => o.orderId
  | .cancel id => id

/-- Each call with what it returned, up to timestamps. -/
def MatchingEngine.answers [LT P] [DecidableLT P] [PriceArith P] (e : MatchingEngine P)
    (calls : List (Call P)) : List (Call P × Reply P) :=
  calls.zip ((e.run calls).2.map Reply.untimed)

/-! ## Hiding an id -/

/-- A deque without the orders of an id, up to timestamps. -/
def hide (id : UInt64) (dq : List (Order P)) : List (Order P) :=
  (dq.filter (·.orderId != id)).map Order.untimed

/-- A level is seen if an order of another id is on it. -/
def shown (id : UInt64) (dq : List (Order P)) : Option (List (Order P)) :=
  if (hide id dq).isEmpty then none else some (hide id dq)

def Levels.view (id : UInt64) (m : Levels P) : Levels P := filterMapValues (shown id) m

variable {id : UInt64}

@[simp] theorem hide_nil : hide id ([] : List (Order P)) = [] := rfl

theorem hide_cons_self {o : Order P} (h : o.orderId = id) (dq : List (Order P)) :
    hide id (o :: dq) = hide id dq := by
  simp [hide, h]

theorem hide_cons_ne {o : Order P} (h : o.orderId ≠ id) (dq : List (Order P)) :
    hide id (o :: dq) = o.untimed :: hide id dq := by
  simp [hide, h]

theorem hide_append (dq dq' : List (Order P)) :
    hide id (dq ++ dq') = hide id dq ++ hide id dq' := by
  simp [hide]

/-- Where the id does not occur only the timestamps are hidden. -/
theorem hide_absent {dq : List (Order P)} (h : ∀ o ∈ dq, o.orderId ≠ id) :
    hide id dq = dq.map Order.untimed := by
  rw [hide, List.filter_eq_self.mpr fun o ho => by simpa using h o ho]

theorem getD_bind_shown (dq : Option (List (Order P))) :
    (dq.bind (shown id)).getD [] = hide id (dq.getD []) := by
  cases dq with
  | none => rfl
  | some dq =>
    cases h : hide id dq with
    | nil => simp [shown, h]
    | cons o os => simp [shown, h]

theorem Levels.view_cons (p : P) (dq : List (Order P)) (m : Levels P) :
    view id ((p, dq) :: m) =
      if (hide id dq).isEmpty then view id m else (p, hide id dq) :: view id m := by
  unfold view filterMapValues
  rw [List.filterMap_cons]
  by_cases h : (hide id dq).isEmpty <;> simp only [shown, h] <;> rfl

theorem Levels.view_absent {m : Levels P} (hne : ∀ l ∈ m, l.2 ≠ [])
    (h : ∀ o ∈ orders m, o.orderId ≠ id) : view id m = untimed m := by
  induction m with
  | nil => rfl
  | cons l m ih =>
    obtain ⟨p, dq⟩ := l
    have hdq : ∀ o ∈ dq, o.orderId ≠ id := fun o ho => h o (List.mem_append_left _ ho)
    have hrest := ih (fun l hl => hne l (List.mem_cons_of_mem _ hl)) fun o ho =>
      h o (List.mem_append_right _ ho)
    have hdq' : dq ≠ [] := hne (p, dq) List.mem_cons_self
    rw [view_cons, hide_absent hdq, hrest]
    simp [untimed, hdq']

/-! ### What the hidden order does not change -/

theorem hide_eraseP_self (dq : List (Order P)) :
    hide id (dq.eraseP (·.orderId == id)) = hide id dq := by
  induction dq with
  | nil => rfl
  | cons o dq ih =>
    by_cases h : o.orderId = id
    · simp [h, hide_cons_self h]
    · simp [h, hide_cons_ne h, ih]

theorem hide_eraseP_ne {other : UInt64} (h : other ≠ id) (dq : List (Order P)) :
    hide id (dq.eraseP (·.orderId == other)) = (hide id dq).eraseP (·.orderId == other) := by
  induction dq with
  | nil => rfl
  | cons o dq ih =>
    by_cases hid : o.orderId = id
    · simp [hid, h.symm, hide_cons_self hid, ih]
    · have hsame : o.untimed.orderId = o.orderId := rfl
      by_cases hother : o.orderId = other
      · simp [hide_cons_ne hid, hsame, hother]
      · simp [hide_cons_ne hid, hsame, hother, ih]

theorem eraseFrom_bind_shown {other : UInt64} {dq : List (Order P)} (hne : dq ≠ []) :
    (OrderBook.eraseFrom other dq).bind (shown id) = shown id (dq.eraseP (·.orderId == other)) := by
  rw [OrderBook.eraseFrom_eq hne]
  split
  · rename_i hempty
    rw [List.isEmpty_iff.mp hempty]
    rfl
  · rfl

/-- Erasing an order of another id is seen as that. -/
theorem shown_eraseP_ne {other : UInt64} (h : other ≠ id) (dq : List (Order P)) :
    shown id (dq.eraseP (·.orderId == other)) =
      (shown id dq).bind (OrderBook.eraseFrom other) := by
  by_cases hempty : hide id dq = []
  · simp [shown, hide_eraseP_ne h, hempty]
  · have hseen : shown id dq = some (hide id dq) := if_neg (by simpa using hempty)
    rw [hseen, Option.bind_some, OrderBook.eraseFrom_eq hempty, shown, hide_eraseP_ne h]

section Book
variable [LinearOrder P] {s : Side} {m : Levels P}

namespace Levels

/-- A push of another id is seen as a push of the same order. -/
theorem WF.view_pushBack (h : WF s m) {o : Order P} (ho : o.orderId ≠ id) :
    view id (OrderBook.pushBack s o m) = OrderBook.pushBack s o.untimed (view id m) := by
  apply h.sorted.filterMapValues_alter
  rw [getD_bind_shown, Option.bind_some, shown, hide_append, hide_cons_ne ho]
  simp

theorem WF.view_pushBack_self (h : WF s m) {o : Order P} (ho : o.orderId = id) :
    view id (OrderBook.pushBack s o m) = view id m := by
  apply h.sorted.filterMapValues_alter_same
  cases hfind : find (better s) o.price m with
  | none => simp [shown, hide_cons_self ho]
  | some dq => simp [shown, hide_append, hide_cons_self ho]

theorem WF.view_eraseOrder (h : WF s m) (p : P) {other : UInt64} (hne : other ≠ id) :
    view id (OrderBook.eraseOrder s p other m) = OrderBook.eraseOrder s p other (view id m) := by
  apply h.sorted.filterMapValues_alter
  cases hfind : find (better s) p m with
  | none => rfl
  | some dq =>
    rw [Option.bind_some, eraseFrom_bind_shown (h.found hfind).1, shown_eraseP_ne hne]
    rfl

theorem WF.view_eraseOrder_self (h : WF s m) (p : P) :
    view id (OrderBook.eraseOrder s p id m) = view id m := by
  apply h.sorted.filterMapValues_alter_same
  cases hfind : find (better s) p m with
  | none => rfl
  | some dq =>
    rw [Option.bind_some, eraseFrom_bind_shown (h.found hfind).1, shown, hide_eraseP_self]
    rfl

end Levels

end Book

/-! ## The matching loops of the two runs -/

/-- The loop of the run with the order and the loop of the run without it. -/
structure MatchState.Alike (id : UInt64) (s' s : MatchState P) : Prop where
  opposite : Levels.view id s'.opposite = Levels.view id s.opposite
  absent : ∀ r ∈ Levels.orders s.opposite, r.orderId ≠ id
  incoming : s'.incoming.untimed = s.incoming.untimed
  trades : s'.trades.map Trade.untimed = s.trades.map Trade.untimed
  cancelIndex : ∀ i, i ≠ id → s'.cancelIndex i = s.cancelIndex i
  lastPrice : s'.lastPrice = s.lastPrice

/-- The level a round leaves is seen through what is left of its deque. -/
theorem fill_view (s : MatchState P) (p : P) {front : Order P} (hfront : front.orderId ≠ id)
    (queue : List (Order P)) (rest : Levels P) :
    Levels.view id (s.fill p front queue rest).opposite =
      let front' := front.untimed.take (fillQuantity s.incoming.untimed front.untimed)
      if front'.remainingQuantity = 0 then
        if (hide id queue).isEmpty then Levels.view id rest
        else (p, hide id queue) :: Levels.view id rest
      else (p, front' :: hide id queue) :: Levels.view id rest := by
  simp only [MatchState.fill]
  have hsame : (front.untimed.take (fillQuantity s.incoming.untimed front.untimed)).remainingQuantity =
      (front.take (fillQuantity s.incoming front)).remainingQuantity := rfl
  rw [hsame]
  split
  · cases queue with
    | nil => simp
    | cons o queue => simp [Levels.view_cons]
  · rw [Levels.view_cons, hide_cons_ne (by simpa using hfront)]
    rfl

theorem fill_trade (s : MatchState P) (p : P) (front : Order P)
    (queue : List (Order P)) (rest : Levels P) :
    (s.fill p front queue rest).trades.map Trade.untimed =
      s.trades.map Trade.untimed ++ [makeTrade s.incoming.untimed front.untimed 0] := by
  simp [MatchState.fill]
  rfl

theorem Order.untimed_eq {o o' : Order P} (h : o'.untimed = o.untimed) :
    o'.orderId = o.orderId ∧ o'.side = o.side ∧ o'.type = o.type ∧ o'.price = o.price ∧
      o'.remainingQuantity = o.remainingQuantity := by
  simp only [Order.untimed, Order.mk.injEq] at h
  obtain ⟨hid, -, hside, htype, -, hprice, -, hquantity, -⟩ := h
  exact ⟨hid, hside, htype, hprice, hquantity⟩

namespace MatchState.Alike

variable {s' s : MatchState P} {p : P} {front' front : Order P} {queue' queue : List (Order P)}
  {rest' rest : Levels P}

/-- A round of both loops on the same order. -/
theorem fill (h : Alike id s' s) (hopp : s.opposite = (p, front :: queue) :: rest)
    (hid : front.orderId ≠ id) (hfront : front'.untimed = front.untimed)
    (hqueue : hide id queue' = hide id queue)
    (hrest : Levels.view id rest' = Levels.view id rest) :
    Alike id (s'.fill p front' queue' rest') (s.fill p front queue rest) := by
  obtain ⟨hsame, -, -, hprice, -⟩ := Order.untimed_eq hfront
  constructor
  case opposite =>
    rw [fill_view s' p (hsame ▸ hid), fill_view s p hid, hfront, hqueue, hrest, h.incoming]
  case absent =>
    intro r hr
    rw [orders_fill] at hr
    rcases List.mem_append.mp hr with hr | hr
    · rw [(mem_remainder hr).1]
      exact hid
    · exact h.absent r (by rw [hopp]; exact List.mem_cons_of_mem _ hr)
  case incoming =>
    change s'.incoming.untimed.take (fillQuantity s'.incoming.untimed front'.untimed) = _
    rw [h.incoming, hfront]
    rfl
  case trades => rw [fill_trade, fill_trade, h.trades, h.incoming, hfront]
  case cancelIndex =>
    intro i hi
    have hquantity : (front'.take (fillQuantity s'.incoming front')).remainingQuantity =
        (front.take (fillQuantity s.incoming front)).remainingQuantity := by
      change (front'.untimed.take
        (fillQuantity s'.incoming.untimed front'.untimed)).remainingQuantity = _
      rw [h.incoming, hfront]
      rfl
    simp only [MatchState.fill, hquantity, hsame]
    split
    · by_cases hf : i = front.orderId
      · simp [hf]
      · simp [hf, h.cancelIndex i hi]
    · exact h.cancelIndex i hi
  case lastPrice => exact congrArg some hprice

variable [LinearOrder P] {side : Side}

theorem view_eq (h : Alike id s' s) (hwf : Levels.WF side s.opposite) :
    Levels.view id s'.opposite = Levels.untimed s.opposite :=
  h.opposite.trans (Levels.view_absent hwf.nonempty h.absent)

/-- Where the first order of the one side is not hidden, it is the first of the other. -/
theorem same_front (h : Alike id s' s) (hwf : Levels.WF side s.opposite)
    (hopp : s'.opposite = (p, front' :: queue') :: rest') (hid : front'.orderId ≠ id) :
    ∃ front queue rest, s.opposite = (p, front :: queue) :: rest ∧ front'.untimed = front.untimed ∧
      hide id queue' = hide id queue ∧ Levels.view id rest' = Levels.view id rest := by
  have hview := h.view_eq hwf
  have habsent := h.absent
  rw [hopp, Levels.view_cons, hide_cons_ne hid] at hview
  cases hs : s.opposite with
  | nil => simp [hs, Levels.untimed] at hview
  | cons l rest =>
    obtain ⟨q, dq⟩ := l
    rw [hs] at hwf habsent
    rw [hs] at hview
    cases dq with
    | nil => exact absurd rfl (hwf.nonempty _ List.mem_cons_self)
    | cons front queue =>
      have hqueue : ∀ o ∈ queue, o.orderId ≠ id := fun o ho => habsent o (by simp [ho])
      have hrest : ∀ o ∈ Levels.orders rest, o.orderId ≠ id := fun o ho => habsent o (by simp [ho])
      simp only [List.isEmpty_cons, Bool.false_eq_true, if_false, Levels.untimed, List.map_cons,
        List.cons.injEq, Prod.mk.injEq] at hview
      obtain ⟨⟨rfl, hfront, hq⟩, hr⟩ := hview
      refine ⟨front, queue, rest, rfl, hfront, ?_, ?_⟩
      · rw [hq, hide_absent hqueue]
      · rw [hr, Levels.view_absent hwf.tail.nonempty hrest]
        rfl

/-- Where the one loop exits, so does the other: a level that only the hidden
order is on stops the incoming order before every level behind it. -/
theorem exit (h : Alike id s' s) (hwf' : Levels.WF side s'.opposite)
    (hwf : Levels.WF side s.opposite) (hside : s'.incoming.side.opposite = side)
    (hexit : matchStep s' = none) : matchStep s = none := by
  obtain ⟨-, hside', htype, hprice, hquantity⟩ := Order.untimed_eq h.incoming
  apply matchStep_eq_none
  intro p dq rest hopp hpos
  have hbeyond := exit_beyond hwf' hside hexit (hquantity ▸ hpos)
  have hseen := filterMapValues_keys (g := shown id)
    (r := fun q => s'.incoming.type = .limit ∧ better side s'.incoming.price q) hbeyond
  change ∀ l ∈ Levels.view id s'.opposite, _ at hseen
  rw [h.view_eq hwf, hopp] at hseen
  obtain ⟨hlimit, hbetter⟩ := hseen _ List.mem_cons_self
  rw [Order.stopsAt_iff, ← htype, ← hside', ← hprice, hside]
  exact ⟨hlimit, hbetter⟩

end MatchState.Alike

theorem names_makeTrade {incoming front : Order P} {timestamp : UInt64} :
    names id (makeTrade incoming front timestamp) = false ↔
      incoming.orderId ≠ id ∧ front.orderId ≠ id := by
  unfold names makeTrade
  cases incoming.side <;> simp [and_comm]

theorem trades_untimed (r : Reply P) : r.untimed.trades = r.trades.map Trade.untimed := by
  cases r with
  | cancelled found => rfl
  | submitted r => cases r <;> rfl

/-- Timestamps have no part in which orders a trade names. -/
theorem names_untimed {ts' ts : List (Trade P)}
    (h : ts'.map Trade.untimed = ts.map Trade.untimed)
    (hnone : ∀ t ∈ ts', names id t = false) : ∀ t ∈ ts, names id t = false := by
  intro t ht
  have hmem : t.untimed ∈ ts'.map Trade.untimed := h ▸ List.mem_map_of_mem ht
  obtain ⟨t', ht', heq⟩ := List.mem_map.mp hmem
  change names id t.untimed = false
  rw [← heq]
  exact hnone t' ht'

section Loops
variable [LinearOrder P]

/-- If no trade names the hidden order the two loops make the same rounds. -/
theorem matchAgainst_alike {side : Side} {s' s : MatchState P} (h : s'.Alike id s)
    (hwf' : Levels.WF side s'.opposite) (hwf : Levels.WF side s.opposite)
    (hside : s'.incoming.side.opposite = side)
    (hnone : ∀ t ∈ (matchAgainst s').trades, names id t = false) :
    (matchAgainst s').Alike id (matchAgainst s) := by
  induction s' using MatchState.rounds_induction generalizing s with
  | exit s' hstep' =>
    rw [matchAgainst_done hstep', matchAgainst_done (h.exit hwf' hwf hside hstep')]
    exact h
  | round s' t' hstep' ih =>
    obtain ⟨p, front', queue', rest', hopp', hpos, hstop, rfl⟩ := matchStep_some.mp hstep'
    have hid : front'.orderId ≠ id := (names_makeTrade.mp (hnone _ (makeTrade_mem hstep'))).2
    obtain ⟨front, queue, rest, hopp, hfront, hqueue, hrest⟩ := h.same_front hwf hopp' hid
    obtain ⟨hsame, -⟩ := Order.untimed_eq hfront
    obtain ⟨-, hside', htype, hprice, hquantity⟩ := Order.untimed_eq h.incoming
    have hstop' : s.incoming.stopsAt p = false := by
      rw [← hstop]
      unfold Order.stopsAt
      rw [hside', htype, hprice]
    have hstep : matchStep s = some (s.fill p front queue rest) :=
      matchStep_some.mpr ⟨p, front, queue, rest, hopp, hquantity ▸ hpos, hstop', rfl⟩
    rw [matchAgainst_step hstep'] at hnone ⊢
    rw [matchAgainst_step hstep]
    exact ih (h.fill hopp (hsame ▸ hid) hfront hqueue hrest) (matchStep_WF hwf' hstep')
      (matchStep_WF hwf hstep) hside hnone

end Loops

end

end TradingSystem
