import TradingSystem.Conservation
import TradingSystem.EngineMain

/-!
# Splitting an order does not change its execution

One order of quantity `q₁ + q₂` is compared with an order of `q₁` followed by
one of `q₂`. The loop of the one order and the two loops of the others take
the same quantities from the same resting orders. Where the cut falls inside
a resting order, one fill of the long loop is two fills of the short ones;
where it falls on an order or a level boundary, or past the liquidity within
the limit, the fills are just cut in two.
-/

namespace TradingSystem

open ListLemmas

section
variable {P : Type}

/-- What a trade took from the book: from which order, at which price, how much. -/
structure Fill (P : Type) where
  orderId : UInt64
  price : P
  quantity : ℕ
  deriving DecidableEq

/-- The fill of a trade of an incoming order of side `s`. -/
def Trade.fill (s : Side) (t : Trade P) : Fill P :=
  ⟨t.orderId s.opposite, t.price, t.quantity.toNat⟩

/-- The fills of the whole are those of the two parts, where the last fill of
the first part and the first fill of the second may be one. -/
def Joins (whole first second : List (Fill P)) : Prop :=
  whole = first ++ second ∨
    ∃ pre id p a b post, first = pre ++ [⟨id, p, a⟩] ∧ second = ⟨id, p, b⟩ :: post ∧
      whole = pre ++ ⟨id, p, a + b⟩ :: post

theorem Joins.cons {whole first second : List (Fill P)} (h : Joins whole first second)
    (f : Fill P) : Joins (f :: whole) (f :: first) second := by
  rcases h with rfl | ⟨pre, id, p, a, b, post, rfl, rfl, rfl⟩
  · exact Or.inl rfl
  · exact Or.inr ⟨f :: pre, id, p, a, b, post, rfl, rfl, rfl⟩

/-- The quantity taken at a price from orders of an id. -/
def takenFrom [DecidableEq P] (id : UInt64) (p : P) (fs : List (Fill P)) : ℕ :=
  total (fun f => f.orderId == id && decide (f.price = p)) Fill.quantity fs

theorem Joins.takenFrom [DecidableEq P] {whole first second : List (Fill P)}
    (h : Joins whole first second) (id : UInt64) (p : P) :
    takenFrom id p whole = takenFrom id p (first ++ second) := by
  rcases h with rfl | ⟨pre, id', p', a, b, post, rfl, rfl, rfl⟩
  · rfl
  · simp only [TradingSystem.takenFrom, total_append, total_cons, total_nil]
    cases (id' == id && decide (p' = p)) with
    | true => simp only [cond_true]; omega
    | false => simp only [cond_false]; omega

namespace MatchState

/-- The fill of a round on `front`. -/
def roundFill (s : MatchState P) (front : Order P) : Fill P :=
  ⟨front.orderId, front.price, (fillQuantity s.incoming front).toNat⟩

/-- The fills of a loop so far. -/
def fills (s : MatchState P) : List (Fill P) := s.trades.map (Trade.fill s.incoming.side)

theorem fills_fill (s : MatchState P) (p : P) (front : Order P) (queue : List (Order P))
    (rest : Levels P) :
    (s.fill p front queue rest).fills = s.fills ++ [s.roundFill front] := by
  have hid := makeTrade_orderId_opposite s.incoming front s.nextTimestamp
  simp only [fills, MatchState.fill, Order.take_side, List.map_append, List.map_cons, List.map_nil,
    Trade.fill, hid]
  rfl

/-- The same loop with another open quantity. -/
def reopen (s : MatchState P) (q : UInt64) : MatchState P :=
  { s with incoming := { s.incoming with remainingQuantity := q } }

/-- Two loops that see the same book through orders of the same terms. What
they have traded so far, their ids and clocks may differ. -/
structure Parallel (s s' : MatchState P) : Prop where
  opposite : s'.opposite = s.opposite
  lastPrice : s'.lastPrice = s.lastPrice
  side : s'.incoming.side = s.incoming.side
  type : s'.incoming.type = s.incoming.type
  price : s'.incoming.price = s.incoming.price
  remaining : s'.incoming.remainingQuantity = s.incoming.remainingQuantity

namespace Parallel

variable {s s' : MatchState P}

theorem fillQuantity (h : Parallel s s') (front : Order P) :
    fillQuantity s'.incoming front = TradingSystem.fillQuantity s.incoming front := by
  unfold TradingSystem.fillQuantity
  rw [h.remaining]

theorem roundFill (h : Parallel s s') (front : Order P) :
    s'.roundFill front = s.roundFill front := by
  unfold MatchState.roundFill
  rw [h.fillQuantity]

theorem fill (h : Parallel s s') (p : P) (front : Order P) (queue : List (Order P))
    (rest : Levels P) : Parallel (s.fill p front queue rest) (s'.fill p front queue rest) := by
  have hq := h.fillQuantity front
  constructor
  case opposite => simp only [MatchState.fill, hq]
  case lastPrice => rfl
  case side => exact h.side
  case type => exact h.type
  case price => exact h.price
  case remaining => simp only [MatchState.fill, hq, Order.take, h.remaining]

variable [LT P] [DecidableLT P]

theorem stopsAt (h : Parallel s s') (p : P) :
    s'.incoming.stopsAt p = s.incoming.stopsAt p := by
  unfold Order.stopsAt
  rw [h.side, h.type, h.price]

theorem round (h : Parallel s s') {p : P} {front : Order P} {queue : List (Order P)}
    {rest : Levels P} (hopp : s.opposite = (p, front :: queue) :: rest)
    (hpos : 0 < s.incoming.remainingQuantity) (hgo : s.incoming.stopsAt p = false) :
    matchStep s' = some (s'.fill p front queue rest) :=
  matchStep_some.mpr ⟨p, front, queue, rest, h.opposite.trans hopp, h.remaining ▸ hpos,
    (h.stopsAt p).trans hgo, rfl⟩

theorem exit (h : Parallel s s') (hs : matchStep s = none) : matchStep s' = none := by
  cases hs' : matchStep s' with
  | none => rfl
  | some t =>
    obtain ⟨p, front, queue, rest, hopp, hpos, hgo, -⟩ := matchStep_some.mp hs'
    rw [matchStep_some.mpr ⟨p, front, queue, rest, h.opposite ▸ hopp, h.remaining ▸ hpos,
      h.stopsAt p ▸ hgo, rfl⟩] at hs
    cases hs

/-- Parallel loops end parallel, with the same further fills. -/
theorem matchAgainst (s : MatchState P) (h : Parallel s s') :
    Parallel (matchAgainst s) (matchAgainst s') ∧
      ∃ fs, (TradingSystem.matchAgainst s).fills = s.fills ++ fs ∧
        (TradingSystem.matchAgainst s').fills = s'.fills ++ fs := by
  induction s using MatchState.rounds_induction generalizing s' with
  | exit s hs =>
    rw [matchAgainst_done hs, matchAgainst_done (h.exit hs)]
    exact ⟨h, [], by simp⟩
  | round s t hs ih =>
    obtain ⟨p, front, queue, rest, hopp, hpos, hgo, rfl⟩ := matchStep_some.mp hs
    obtain ⟨hend, fs, hfs, hfs'⟩ := ih (h.fill p front queue rest)
    rw [matchAgainst_step hs, matchAgainst_step (h.round hopp hpos hgo)]
    refine ⟨hend, s.roundFill front :: fs, ?_, ?_⟩
    · rw [hfs, fills_fill, List.append_assoc, List.singleton_append]
    · rw [hfs', fills_fill, h.roundFill, List.append_assoc, List.singleton_append]

end Parallel

/-! ## The cut -/

theorem fillQuantity_eq_front {incoming front : Order P}
    (h : front.remainingQuantity.toNat ≤ incoming.remainingQuantity.toNat) :
    fillQuantity incoming front = front.remainingQuantity := by
  rw [← UInt64.toNat_inj, toNat_fillQuantity]
  exact Nat.min_eq_right h

theorem fillQuantity_eq_incoming {incoming front : Order P}
    (h : incoming.remainingQuantity.toNat ≤ front.remainingQuantity.toNat) :
    fillQuantity incoming front = incoming.remainingQuantity := by
  rw [← UInt64.toNat_inj, toNat_fillQuantity]
  exact Nat.min_eq_left h

section
variable {s : MatchState P} {q₁ q₂ : UInt64} {front : Order P}

/-- A cut behind the front order: both loops take all of it. -/
theorem fill_reopen (hle : front.remainingQuantity.toNat ≤ q₁.toNat)
    (hq : s.incoming.remainingQuantity.toNat = q₁.toNat + q₂.toNat) (p : P)
    (queue : List (Order P)) (rest : Levels P) :
    (s.reopen q₁).fill p front queue rest =
      (s.fill p front queue rest).reopen (q₁ - front.remainingQuantity) := by
  have hpart : fillQuantity (s.reopen q₁).incoming front = front.remainingQuantity :=
    fillQuantity_eq_front hle
  have hwhole : fillQuantity s.incoming front = front.remainingQuantity :=
    fillQuantity_eq_front (by omega)
  simp only [MatchState.fill, makeTrade, hpart, hwhole]
  rfl

variable (hlt : q₁.toNat < front.remainingQuantity.toNat)
include hlt

theorem toNat_take_cut : (front.take q₁).remainingQuantity.toNat =
    front.remainingQuantity.toNat - q₁.toNat :=
  UInt64.toNat_sub_of_le _ _ (UInt64.le_iff_toNat_le.mpr hlt.le)

/-- A cut inside the front order fills the first part and leaves the rest of
the order in front. -/
theorem fill_cut (p : P) (queue : List (Order P)) (rest : Levels P) :
    ((s.reopen q₁).fill p front queue rest).opposite = (p, front.take q₁ :: queue) :: rest ∧
      ((s.reopen q₁).fill p front queue rest).incoming.remainingQuantity = 0 ∧
      (s.reopen q₁).roundFill front = ⟨front.orderId, front.price, q₁.toNat⟩ := by
  have hpart : fillQuantity (s.reopen q₁).incoming front = q₁ := fillQuantity_eq_incoming hlt.le
  have hleft : (front.take q₁).remainingQuantity ≠ 0 := by
    rw [Ne, eq_zero_iff_toNat_eq_zero, toNat_take_cut hlt]
    omega
  refine ⟨?_, ?_, ?_⟩
  · simp only [MatchState.fill, hpart, hleft, if_false]
  · simp only [MatchState.fill, hpart]
    exact UInt64.sub_self q₁
  · simp only [roundFill, hpart]

/-- The part of the front order behind the cut is taken by the second part. -/
theorem fillQuantity_cut (hq : s.incoming.remainingQuantity.toNat = q₁.toNat + q₂.toNat)
    {second : Order P} (hsecond : second.remainingQuantity = q₂) :
    fillQuantity s.incoming front = q₁ + fillQuantity second (front.take q₁) ∧
      (fillQuantity s.incoming front).toNat =
        q₁.toNat + (fillQuantity second (front.take q₁)).toNat := by
  have hnat : (fillQuantity s.incoming front).toNat =
      q₁.toNat + (fillQuantity second (front.take q₁)).toNat := by
    rw [toNat_fillQuantity, toNat_fillQuantity, toNat_take_cut hlt, hsecond]
    omega
  refine ⟨?_, hnat⟩
  rw [← UInt64.toNat_inj, hnat, UInt64.toNat_add, Nat.mod_eq_of_lt]
  rw [← hnat]
  exact UInt64.toNat_lt _

/-- After the second part has had its first round the loops are parallel. -/
theorem fill_cut_parallel (hq : s.incoming.remainingQuantity.toNat = q₁.toNat + q₂.toNat)
    {v : MatchState P} (hv : v.incoming = { s.incoming with remainingQuantity := q₂ }) (p : P)
    (queue : List (Order P)) (rest : Levels P) :
    Parallel (s.fill p front queue rest) (v.fill p (front.take q₁) queue rest) := by
  have hrest : v.incoming.remainingQuantity = q₂ := by rw [hv]
  obtain ⟨hfill, -⟩ := fillQuantity_cut hlt hq hrest
  have hsum : s.incoming.remainingQuantity = q₁ + q₂ := by
    rw [← UInt64.toNat_inj, hq, UInt64.toNat_add, Nat.mod_eq_of_lt]
    rw [← hq]
    exact UInt64.toNat_lt _
  have htake : (front.take q₁).take (fillQuantity v.incoming (front.take q₁)) =
      front.take (fillQuantity s.incoming front) := by
    rw [hfill]
    simp only [Order.take, Order.mk.injEq, true_and]
    grind
  constructor
  case opposite =>
    exact congrArg (fun left : Order P => if left.remainingQuantity = 0 then
      if queue.isEmpty then rest else (p, queue) :: rest else (p, left :: queue) :: rest) htake
  case lastPrice => rfl
  case side => rw [MatchState.fill, hv]; rfl
  case type => rw [MatchState.fill, hv]; rfl
  case price => rw [MatchState.fill, hv]; rfl
  case remaining =>
    change v.incoming.remainingQuantity - fillQuantity v.incoming (front.take q₁) =
      s.incoming.remainingQuantity - fillQuantity s.incoming front
    rw [hfill, hsum, hv]
    grind

end

/-! ## The loop of the whole and the loops of its parts -/

/-- The loop of the whole order against the two loops of its parts, all from
`start`. -/
structure SplitRun (start first second whole : MatchState P) : Prop where
  opposite : second.opposite = whole.opposite
  lastPrice : second.lastPrice = whole.lastPrice
  remaining : first.incoming.remainingQuantity.toNat + second.incoming.remainingQuantity.toNat =
    whole.incoming.remainingQuantity.toNat
  fills : ∃ fs₁ fs₂ fs, first.fills = start.fills ++ fs₁ ∧ second.fills = first.fills ++ fs₂ ∧
    whole.fills = start.fills ++ fs ∧ Joins fs fs₁ fs₂

theorem Parallel.refl (s : MatchState P) : Parallel s s := ⟨rfl, rfl, rfl, rfl, rfl, rfl⟩

/-- A round that all loops share comes before the cut. -/
theorem SplitRun.cons {s t first second whole : MatchState P} (h : SplitRun t first second whole)
    {f : Fill P} (hf : t.fills = s.fills ++ [f]) : SplitRun s first second whole := by
  obtain ⟨fs₁, fs₂, fs, h₁, h₂, hfs, hjoin⟩ := h.fills
  refine ⟨h.opposite, h.lastPrice, h.remaining, f :: fs₁, fs₂, f :: fs, ?_, h₂, ?_, hjoin.cons f⟩
  · rw [h₁, hf, List.append_assoc, List.singleton_append]
  · rw [hfs, hf, List.append_assoc, List.singleton_append]

variable [LT P] [DecidableLT P]

/-- Where the loop makes no round it makes none for a smaller quantity. -/
theorem matchStep_reopen_none {s : MatchState P} (h : matchStep s = none) {q : UInt64}
    (hq : q.toNat ≤ s.incoming.remainingQuantity.toNat) : matchStep (s.reopen q) = none := by
  cases hs : matchStep (s.reopen q) with
  | none => rfl
  | some t =>
    obtain ⟨p, front, queue, rest, hopp, hpos, hgo, -⟩ := matchStep_some.mp hs
    have hpos' : 0 < s.incoming.remainingQuantity := by
      rw [pos_iff_toNat_pos] at hpos ⊢
      exact Nat.lt_of_lt_of_le hpos hq
    have hstep : matchStep s = some (s.fill p front queue rest) :=
      matchStep_some.mpr ⟨p, front, queue, rest, hopp, hpos', hgo, rfl⟩
    rw [hstep] at h
    cases h

section
variable {s : MatchState P} {q₁ q₂ : UInt64}

/-- Nothing before the cut. -/
theorem split_at_start (hzero : q₁ = 0)
    (hq : s.incoming.remainingQuantity.toNat = q₁.toNat + q₂.toNat) :
    SplitRun s (matchAgainst (s.reopen q₁))
      (matchAgainst ((matchAgainst (s.reopen q₁)).reopen q₂)) (matchAgainst s) := by
  have hrest : q₂ = s.incoming.remainingQuantity := by
    rw [← UInt64.toNat_inj, hq, hzero]
    exact (Nat.zero_add _).symm
  have hsame : (s.reopen q₁).reopen q₂ = s := by
    rw [hrest]
    rfl
  rw [matchAgainst_of_filled (s := s.reopen q₁) hzero, hsame]
  obtain ⟨-, fs, hfs, -⟩ := Parallel.matchAgainst s (.refl s)
  refine ⟨rfl, rfl, ?_, [], fs, fs, (List.append_nil _).symm, hfs, hfs, Or.inl rfl⟩
  simp only [reopen, hzero]
  exact Nat.zero_add _

/-- Nothing behind the cut. -/
theorem split_at_end (hzero : q₂ = 0)
    (hq : s.incoming.remainingQuantity.toNat = q₁.toNat + q₂.toNat) :
    SplitRun s (matchAgainst (s.reopen q₁))
      (matchAgainst ((matchAgainst (s.reopen q₁)).reopen q₂)) (matchAgainst s) := by
  have hall : s.incoming.remainingQuantity = q₁ := by
    rw [← UInt64.toNat_inj, hq, hzero]
    exact Nat.add_zero _
  have hsame : s.reopen q₁ = s := by
    rw [← hall]
    rfl
  rw [hsame, matchAgainst_of_filled (s := (matchAgainst s).reopen q₂) hzero]
  obtain ⟨-, fs, hfs, -⟩ := Parallel.matchAgainst s (.refl s)
  refine ⟨rfl, rfl, ?_, fs, [], fs, hfs, (List.append_nil _).symm, hfs,
    Or.inl (List.append_nil _).symm⟩
  simp only [reopen, hzero]
  exact Nat.add_zero _

variable {p : P} {front : Order P} {queue : List (Order P)} {rest : Levels P}

/-- The cut inside the front order: the second part goes on with the rest of
it. -/
theorem split_inside (hopp : s.opposite = (p, front :: queue) :: rest)
    (hgo : s.incoming.stopsAt p = false) (hpos₁ : 0 < q₁) (hpos₂ : 0 < q₂)
    (hlt : q₁.toNat < front.remainingQuantity.toNat)
    (hq : s.incoming.remainingQuantity.toNat = q₁.toNat + q₂.toNat) :
    SplitRun s (matchAgainst (s.reopen q₁))
      (matchAgainst ((matchAgainst (s.reopen q₁)).reopen q₂)) (matchAgainst s) := by
  obtain ⟨hleft, hfilled, hfill⟩ := fill_cut (s := s) hlt p queue rest
  have hstep : matchStep (s.reopen q₁) = some ((s.reopen q₁).fill p front queue rest) :=
    matchStep_some.mpr ⟨p, front, queue, rest, hopp, hpos₁, hgo, rfl⟩
  rw [matchAgainst_step hstep, matchAgainst_of_filled hfilled]
  -- `v` is where the second part starts
  generalize hv : ((s.reopen q₁).fill p front queue rest).reopen q₂ = v
  have hvopp : v.opposite = (p, front.take q₁ :: queue) :: rest := by rw [← hv]; exact hleft
  have hvincoming : v.incoming = { s.incoming with remainingQuantity := q₂ } := by rw [← hv]; rfl
  have hfirst : ((s.reopen q₁).fill p front queue rest).fills = v.fills := by rw [← hv]; rfl
  have hvfills : v.fills = s.fills ++ [⟨front.orderId, front.price, q₁.toNat⟩] := by
    rw [← hfill, ← hfirst]
    exact fills_fill (s.reopen q₁) p front queue rest
  have hround : matchStep v = some (v.fill p (front.take q₁) queue rest) := by
    apply matchStep_some.mpr
    rw [hvincoming]
    exact ⟨p, front.take q₁, queue, rest, hvopp, hpos₂, hgo, rfl⟩
  have hstart : matchStep s = some (s.fill p front queue rest) := by
    refine matchStep_some.mpr ⟨p, front, queue, rest, hopp, ?_, hgo, rfl⟩
    rw [pos_iff_toNat_pos] at hpos₁ ⊢
    omega
  have hrest : v.incoming.remainingQuantity = q₂ := by rw [hvincoming]
  obtain ⟨-, hsum⟩ := fillQuantity_cut hlt hq hrest
  obtain ⟨hend, fs, hwhole, hsecond⟩ :=
    Parallel.matchAgainst _ (fill_cut_parallel hlt hq hvincoming p queue rest)
  rw [fills_fill, List.append_assoc] at hwhole hsecond
  rw [matchAgainst_step hround, matchAgainst_step hstart]
  refine ⟨hend.opposite, hend.lastPrice, ?_, _, _, _, hfirst.trans hvfills, hfirst ▸ hsecond,
    hwhole, Or.inr ⟨[], front.orderId, front.price, _, _, fs, rfl, rfl, ?_⟩⟩
  · rw [hend.remaining, hfilled]
    exact Nat.zero_add _
  · rw [roundFill, hsum]
    rfl

end

/-- The loop of an order and the loops of its two parts do the same. -/
theorem matchAgainst_split (s : MatchState P) {q₁ q₂ : UInt64}
    (hq : s.incoming.remainingQuantity.toNat = q₁.toNat + q₂.toNat) :
    SplitRun s (matchAgainst (s.reopen q₁))
      (matchAgainst ((matchAgainst (s.reopen q₁)).reopen q₂)) (matchAgainst s) := by
  induction s using MatchState.rounds_induction generalizing q₁ with
  | exit s hs =>
    have hs₁ : matchStep (s.reopen q₁) = none := matchStep_reopen_none hs (by omega)
    have hs₂ : matchStep (s.reopen q₂) = none := matchStep_reopen_none hs (by omega)
    rw [matchAgainst_done hs, matchAgainst_done hs₁]
    change SplitRun s _ (matchAgainst (s.reopen q₂)) s
    rw [matchAgainst_done hs₂]
    exact ⟨rfl, rfl, hq.symm, [], [], [], (List.append_nil _).symm, (List.append_nil _).symm,
      (List.append_nil _).symm, Or.inl rfl⟩
  | round s t hs ih =>
    obtain ⟨p, front, queue, rest, hopp, hpos, hgo, rfl⟩ := matchStep_some.mp hs
    by_cases hzero : q₁ = 0
    · exact split_at_start hzero hq
    by_cases hnone : q₂ = 0
    · exact split_at_end hnone hq
    have hpos₁ : 0 < q₁ := UInt64.pos_iff_ne_zero.mpr hzero
    by_cases hle : front.remainingQuantity.toNat ≤ q₁.toNat
    · have hstep : matchStep (s.reopen q₁) =
          some ((s.fill p front queue rest).reopen (q₁ - front.remainingQuantity)) := by
        rw [← fill_reopen hle hq]
        exact matchStep_some.mpr ⟨p, front, queue, rest, hopp, hpos₁, hgo, rfl⟩
      have hrest : (s.fill p front queue rest).incoming.remainingQuantity.toNat =
          (q₁ - front.remainingQuantity).toNat + q₂.toNat := by
        have htake := toNat_take_incoming s.incoming front
        rw [UInt64.toNat_sub_of_le _ _ (UInt64.le_iff_toNat_le.mpr hle)]
        rw [fillQuantity_eq_front (by omega)] at htake
        simp only [MatchState.fill]
        rw [fillQuantity_eq_front (by omega)]
        omega
      rw [matchAgainst_step hs, matchAgainst_step hstep]
      exact (ih hrest).cons (fills_fill s p front queue rest)
    · exact split_inside hopp hgo hpos₁ (UInt64.pos_iff_ne_zero.mpr hnone) (by omega) hq

end MatchState

end

/-! ## The submissions -/

section
variable {P : Type}

/-- Two orders on the same terms, whatever their ids and quantities. -/
structure Order.SameTerms (o o' : Order P) : Prop where
  side : o.side = o'.side
  type : o.type = o'.type
  price : o.price = o'.price

/-- The fills of a submission on side `s`. -/
def SubmitResult.fills (s : Side) (r : SubmitResult P) : List (Fill P) :=
  r.tradeList.map (Trade.fill s)

/-- The quantity that rests on a side at a price. -/
def OrderBook.openAt [DecidableEq P] (b : OrderBook P) (s : Side) (p : P) : ℕ :=
  total (fun o => decide (o.price = p)) Order.left (b.orders s)

/-- A split submission on side `s` against the whole one: the other side of the
book is left the same, every order there is filled by as much at the same
price, and as much comes to rest at each price. -/
structure SameExecution [DecidableEq P] (s : Side) (whole split : MatchingEngine P)
    (fs first second : List (Fill P)) : Prop where
  opposite : split.book.levels s.opposite = whole.book.levels s.opposite
  fills : Joins fs first second
  taken : ∀ id p, takenFrom id p fs = takenFrom id p (first ++ second)
  lastPrice : split.lastPrice = whole.lastPrice
  added : ∀ p, split.book.openAt s p = whole.book.openAt s p

variable [LinearOrder P]

namespace MatchingEngine

theorem matched_fills (e : MatchingEngine P) (o : Order P) :
    (e.matched o).fills = (e.matched o).trades.map (Trade.fill o.side) := by
  rw [MatchState.fills, matched_side]

theorem submit_levels_opposite (e : MatchingEngine P) (o : Order P) :
    ((e.tick.leave (e.matched o)).rest (e.matched o).incoming).book.levels o.side.opposite =
      (e.matched o).opposite := by
  have hleave := (e.leave_matched_levels o).2
  unfold rest
  split
  · have hrest := OrderBook.addRestingOrder_levels_opposite (e.tick.leave (e.matched o)).book
      (e.matched o).incoming
    rw [matched_side] at hrest
    exact hrest.trans hleave
  · exact hleave

/-- The remainder of a limit order rests at its price, nothing else changes on
its side. -/
theorem submit_openAt (e : MatchingEngine P) (o : Order P) (p : P) :
    ((e.tick.leave (e.matched o)).rest (e.matched o).incoming).book.openAt o.side p =
      e.book.openAt o.side p + if o.type = .limit ∧ o.price = p then (e.matched o).incoming.left
        else 0 := by
  have hrest := rest_total (e.tick.leave (e.matched o)) (e.matched o).incoming fun x => decide (x.price = p)
  rw [matched_side, (e.leave_orders o).1, matched_type] at hrest
  unfold OrderBook.openAt
  cases ht : o.type with
  | limit =>
    by_cases hp : o.price = p
    · simpa [ht, hp] using hrest
    · simpa [ht, hp] using hrest
  | market => simpa [ht] using hrest

variable {e : MatchingEngine P} {whole first second : Order P}

omit [LinearOrder P] in
/-- The submission of a part starts as the loop of the whole does, with less
to fill. -/
theorem enter_parallel (hfirst : first.SameTerms whole) :
    ((e.tick.enter (e.stamp whole)).reopen first.quantity).Parallel
      (e.tick.enter (e.stamp first)) where
  opposite := congrArg (fun s : Side => e.book.levels s.opposite) hfirst.side
  lastPrice := rfl
  side := hfirst.side
  type := hfirst.type
  price := hfirst.price
  remaining := rfl

/-- The second submission finds the book and the last price as the first left
them. -/
theorem enter_parallel_after {m : MatchState P} (hend : m.Parallel (e.matched first))
    (hterms : second.SameTerms first) {e₁ : MatchingEngine P}
    (he₁ : e₁ = (e.tick.leave (e.matched first)).rest (e.matched first).incoming) :
    (m.reopen second.quantity).Parallel (e₁.tick.enter (e₁.stamp second)) := by
  constructor
  case opposite =>
    change e₁.book.levels second.side.opposite = m.opposite
    rw [hterms.side, he₁, submit_levels_opposite]
    exact hend.opposite
  case lastPrice =>
    change e₁.lastPrice = m.lastPrice
    rw [he₁, rest_lastPrice]
    exact hend.lastPrice
  case side => exact hterms.side.trans ((e.matched_side first).symm.trans hend.side)
  case type => exact hterms.type.trans ((e.matched_type first).symm.trans hend.type)
  case price => exact hterms.price.trans ((e.matched_price first).symm.trans hend.price)
  case remaining => rfl

/-- The loops of the three submissions. -/
theorem split_matched (hfirst : first.SameTerms whole) (hsecond : second.SameTerms whole)
    (hq : whole.quantity.toNat = first.quantity.toNat + second.quantity.toNat)
    {e₁ : MatchingEngine P}
    (he₁ : e₁ = (e.tick.leave (e.matched first)).rest (e.matched first).incoming) :
    (e₁.matched second).opposite = (e.matched whole).opposite ∧
      (e₁.matched second).lastPrice = (e.matched whole).lastPrice ∧
      (e.matched first).incoming.left + (e₁.matched second).incoming.left =
        (e.matched whole).incoming.left ∧
      Joins (e.matched whole).fills (e.matched first).fills (e₁.matched second).fills := by
  have hterms : second.SameTerms first :=
    ⟨hsecond.side.trans hfirst.side.symm, hsecond.type.trans hfirst.type.symm,
      hsecond.price.trans hfirst.price.symm⟩
  have hrun := MatchState.matchAgainst_split (e.tick.enter (e.stamp whole)) hq
  obtain ⟨hend₁, fs₁, hfs₁, hfs₁'⟩ := MatchState.Parallel.matchAgainst _ (enter_parallel hfirst)
  obtain ⟨hend₂, fs₂, hfs₂, hfs₂'⟩ :=
    MatchState.Parallel.matchAgainst _ (enter_parallel_after hend₁ hterms he₁)
  refine ⟨hend₂.opposite.trans hrun.opposite, hend₂.lastPrice.trans hrun.lastPrice, ?_, ?_⟩
  · have hsum := hrun.remaining
    rw [← hend₁.remaining, ← hend₂.remaining] at hsum
    exact hsum
  · -- all three submissions start without fills
    change (e.matched first).fills = [] ++ fs₁ at hfs₁'
    change (e₁.matched second).fills = [] ++ fs₂ at hfs₂'
    obtain ⟨gs₁, gs₂, gs, hgs₁, hgs₂, hgs, hjoin⟩ := hrun.fills
    change (e.matched whole).fills = [] ++ gs at hgs
    rw [hgs₁] at hfs₁
    rw [hgs₂] at hfs₂
    rw [List.append_cancel_left hfs₁, List.append_cancel_left hfs₂] at hjoin
    rw [hgs, hfs₁', hfs₂']
    exact hjoin

variable [PriceArith P]

theorem sameExecution_of_accepted {whole first second : Order P} (hfirst : first.SameTerms whole)
    (hsecond : second.SameTerms whole)
    (hq : whole.quantity.toNat = first.quantity.toNat + second.quantity.toNat)
    {e e₁ : MatchingEngine P} (he₁ : e₁ = (e.submitOrder first).1)
    (hacc : whole.type = .limit → (e.collarCheck whole).accepted = true ∧
      (e.collarCheck first).accepted = true ∧ (e₁.collarCheck second).accepted = true) :
    SameExecution whole.side (e.submitOrder whole).1 (e₁.submitOrder second).1
      ((e.submitOrder whole).2.fills whole.side) ((e.submitOrder first).2.fills whole.side)
      ((e₁.submitOrder second).2.fills whole.side) := by
  have hall : (e.collarCheck whole).accepted = true ∧ (e.collarCheck first).accepted = true ∧
      (e₁.collarCheck second).accepted = true := by
    cases ht : whole.type with
    | limit => exact hacc ht
    | market => simp [collarCheck, ht, hfirst.type, hsecond.type]
  rw [submitOrder_accepted hall.2.1] at he₁
  rw [submitOrder_accepted hall.1, submitOrder_accepted hall.2.1, submitOrder_accepted hall.2.2]
  dsimp only at he₁ ⊢
  obtain ⟨hopp, hlast, hleft, hjoin⟩ := split_matched hfirst hsecond hq he₁
  rw [matched_fills, matched_fills, matched_fills, hfirst.side, hsecond.side] at hjoin
  refine ⟨?_, hjoin, hjoin.takenFrom, ?_, fun p => ?_⟩
  · have hsplit := e₁.submit_levels_opposite second
    rw [hsecond.side] at hsplit
    rw [hsplit, hopp, submit_levels_opposite]
  · rw [rest_lastPrice, rest_lastPrice]
    exact hlast
  · have hsplit := submit_openAt e₁ second p
    have hpart := submit_openAt e first p
    rw [← he₁] at hpart
    rw [hsecond.side, hsecond.type, hsecond.price] at hsplit
    rw [hfirst.side, hfirst.type, hfirst.price] at hpart
    rw [hsplit, hpart, submit_openAt e whole p]
    split
    · omega
    · rfl

/-- **Splitting an order.** After any calls, an order of quantity `q₁ + q₂` and
two orders of `q₁` and then `q₂` on the same terms, under any ids, have the
same execution; for limit orders if the collar accepts all three submissions,
for market orders always. -/
theorem split_order_same_execution (band : P) (calls : List (Call P))
    {whole first second : Order P} (hfirst : first.SameTerms whole)
    (hsecond : second.SameTerms whole)
    (hq : whole.quantity.toNat = first.quantity.toNat + second.quantity.toNat)
    {e e₁ : MatchingEngine P} (he : e = ((new band).run calls).1)
    (he₁ : e₁ = (e.submitOrder first).1)
    (hacc : whole.type = .limit → (e.collarCheck whole).accepted = true ∧
      (e.collarCheck first).accepted = true ∧ (e₁.collarCheck second).accepted = true) :
    SameExecution whole.side (e.submitOrder whole).1 (e₁.submitOrder second).1
      ((e.submitOrder whole).2.fills whole.side) ((e.submitOrder first).2.fills whole.side)
      ((e₁.submitOrder second).2.fills whole.side) := by
  subst he
  exact sameExecution_of_accepted hfirst hsecond hq he₁ hacc

/-- A sell of 30 in two parts of 15 against bids of 10 at 100 and at 99: the
cut falls inside the second bid. -/
def twoBids : List (Call ℚ) :=
  [.submit (Order.make 1 .buy .limit 100 10), .submit (Order.make 2 .buy .limit 99 10)]

theorem split_order_inside_second_bid :
    SameExecution .sell (((new (10 : ℚ)).run twoBids).1.submitOrder
        (Order.make 3 .sell .limit 99 30)).1
      ((((new (10 : ℚ)).run twoBids).1.submitOrder (Order.make 4 .sell .limit 99 15)).1.submitOrder
        (Order.make 5 .sell .limit 99 15)).1
      [⟨1, 100, 10⟩, ⟨2, 99, 10⟩] [⟨1, 100, 10⟩, ⟨2, 99, 5⟩] [⟨2, 99, 5⟩] := by
  have hterms (id : UInt64) : (Order.make id .sell .limit (99 : ℚ) 15).SameTerms
      (Order.make 3 .sell .limit 99 30) := ⟨rfl, rfl, rfl⟩
  have h := split_order_same_execution (10 : ℚ) twoBids (hterms 4) (hterms 5) rfl rfl rfl
    fun _ => by decide +kernel
  have hfills : (((new (10 : ℚ)).run twoBids).1.submitOrder
      (Order.make 3 .sell .limit 99 30)).2.fills .sell = [⟨1, 100, 10⟩, ⟨2, 99, 10⟩] := by
    decide +kernel
  have hfirst : (((new (10 : ℚ)).run twoBids).1.submitOrder
      (Order.make 4 .sell .limit 99 15)).2.fills .sell = [⟨1, 100, 10⟩, ⟨2, 99, 5⟩] := by
    decide +kernel
  have hsecond : ((((new (10 : ℚ)).run twoBids).1.submitOrder
      (Order.make 4 .sell .limit 99 15)).1.submitOrder
        (Order.make 5 .sell .limit 99 15)).2.fills .sell = [⟨2, 99, 5⟩] := by
    decide +kernel
  rwa [← hfills, ← hfirst, ← hsecond]

end MatchingEngine

end

end TradingSystem
