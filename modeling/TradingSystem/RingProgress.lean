import TradingSystem.RingWrap

/-!
# The ring's threads get done

Neither thread of `run_lockfree` in `tests/test_threaded_runner.cpp` ever
blocks: a full ring sends the producer round the loop of `push`, an empty one
the consumer round the loop of `pop`. A schedule can let a thread go round for
as long as it likes. Apart from those rounds a run has a bounded number of
steps, and until the consumer's loop has ended one of them can be taken; there
is no wakeup to lose.
-/

namespace TradingSystem

open Transition

variable {w : ℕ} {P : Type}

/-- The steps left in a `push`, one more for what publishing the order may
cost the consumer, and the call of `shutdown`. -/
def RingPush.rank : RingPush w P → ℕ
  | .loaded _ _ => 5
  | .writing _ _ => 4
  | .storing _ _ => 3
  | .idle => 1
  | .stopped => 0

/-- The steps left in a `pop` and a call of it, given whether there is an order
and whether `done_` is set. -/
def RingPop.rank (available done : Bool) : RingPop w P → ℕ
  | .idle => 4
  | .polling _ => 3
  | .checking _ => if available then 4 else if done then 2 else 3
  | .rechecking _ => if available then 3 else 1
  | .reading _ => 2
  | .advancing _ _ => 1
  | .refused => 0

/-- An order that is published sends a consumer that found nothing round once
more. -/
theorem RingPop.rank_published {pc : RingPop w P} (hpc : ∀ tail, pc ≠ .rechecking tail)
    (before after : Bool) : pc.rank after false ≤ pc.rank before false + 1 := by
  cases pc with
  | rechecking tail => exact absurd rfl (hpc tail)
  | checking => cases before <;> cases after <;> simp [rank]
  | idle | polling | reading | advancing | refused => simp [rank]

theorem RingPop.rank_done (pc : RingPop w P) (available : Bool) :
    pc.rank available true ≤ pc.rank available false := by
  cases pc with
  | checking => cases available <;> simp [rank]
  | idle | polling | rechecking | reading | advancing | refused => simp [rank]

namespace LockFreeQueue

/-- The step is one of a round that will find nothing: room, an order or the
flag. -/
def spins (s : LockFreeQueue w P) : RingEvent P → Bool
  | .loadTail =>
    match s.push with
    | .loaded _ head => !decide (head - s.tail < s.capacity)
    | _ => false
  | .loadHead =>
    match s.pop with
    | .polling tail => !decide (tail < s.head) && !s.done
    | _ => false
  | .loadDone =>
    match s.pop with
    | .checking tail => !decide (tail < s.head) && !s.done
    | _ => false
  | _ => false

def cost (s : LockFreeQueue w P) : ℕ :=
  s.push.rank + s.pop.rank (decide (s.tail < s.head)) s.done

/-- The call of `push` brings the cost of its steps. -/
def brings : RingEvent P → ℕ
  | .beginPush _ => 5
  | _ => 0

variable {c : ℕ} {s t : LockFreeQueue w P} {e : RingEvent P}

theorem full_of_spin {o : Order P} {head : BitVec w} (hpush : s.push = .loaded o head)
    (h : s.step .loadTail = some s) : ¬ head - s.tail < s.capacity := by
  intro hroom
  simp only [LockFreeQueue.step, hpush, if_pos hroom, Option.some.injEq] at h
  have hmoved := congrArg LockFreeQueue.push h
  rw [hpush] at hmoved
  cases hmoved

theorem empty_of_nothing {tail : BitVec w} (hpop : s.pop = .polling tail)
    (h : s.step .loadHead = some { s with pop := .checking tail }) : ¬ tail < s.head := by
  intro hlt
  simp only [LockFreeQueue.step, hpop, if_pos hlt, Option.some.injEq] at h
  cases congrArg LockFreeQueue.pop h

theorem open_of_again {tail : BitVec w} (hpop : s.pop = .checking tail)
    (h : s.step .loadDone = some { s with pop := .polling tail }) : s.done = false := by
  cases hdone : s.done with
  | false => rfl
  | true =>
    simp only [LockFreeQueue.step, hpop, hdone, if_true, Option.some.injEq] at h
    cases congrArg LockFreeQueue.pop h

/-- A step that is not part of a spin lowers the cost, where each returned order
pays for the next `pop`. -/
theorem Inv.step_cost (h : Inv c s) (hstep : s.step e = some t)
    (hpop : e = .beginPop → s.pop ≠ .refused) :
    (!s.spins e).toNat + t.cost + 4 * s.returned.length ≤
      s.cost + brings e + 4 * t.returned.length := by
  have hpops := h.pop
  unfold PopKnows at hpops
  cases step_does hstep with
  | beginPush hpush | writeSlot hpush =>
    simp only [cost, spins, brings, hpush, RingPush.rank, Bool.not_false, Bool.toNat_true]
    omega
  | room hpush hroom =>
    simp only [cost, spins, brings, hpush, hroom, RingPush.rank, decide_true, Bool.not_true,
      Bool.not_false, Bool.toNat_true]
    omega
  | @spin o head hpush =>
    have hfull := full_of_spin hpush hstep
    simp [spins, hpush, hfull]
  | storeHead hpush =>
    have hopen : s.done = false := by simpa [hpush] using h.closed
    have hrechecks : ∀ tail, s.pop ≠ .rechecking tail := by
      intro tail hp
      simp [hp, hopen] at hpops
    simp only [cost, spins, brings, hpush, hopen, RingPush.rank, Bool.not_false, Bool.toNat_true]
    have hrank := RingPop.rank_published hrechecks (decide (s.tail < s.head))
    grind
  | shutdown hpush =>
    have hopen : s.done = false := by simpa [hpush] using h.closed
    have hrank := s.pop.rank_done (decide (s.tail < s.head))
    simp only [cost, spins, brings, hpush, hopen, RingPush.rank, Bool.not_false, Bool.toNat_true]
    omega
  | beginPop hidle =>
    have hp : s.pop = .idle := hidle.resolve_right (hpop rfl)
    simp only [cost, spins, brings, hp, RingPop.rank, Bool.not_false, Bool.toNat_true]
    omega
  | available hp hlt =>
    simp only [cost, spins, brings, hp, hlt, RingPop.rank, decide_true, Bool.not_true,
      Bool.false_and, Bool.not_false, Bool.toNat_true]
    omega
  | @nothing tail hp =>
    have hempty := empty_of_nothing hp hstep
    simp only [hp] at hpops
    subst hpops
    cases hdone : s.done with
    | false => simp [cost, spins, hp, hempty, hdone, RingPop.rank]
    | true =>
      simp only [cost, spins, brings, hp, hempty, hdone, RingPop.rank, decide_false, if_true,
        Bool.false_eq_true, if_false, Bool.not_true, Bool.and_false, Bool.not_false,
        Bool.toNat_true]
      omega
  | sawDone hp hdone =>
    simp only [hp] at hpops
    subst hpops
    simp only [cost, spins, brings, hp, hdone, RingPop.rank, if_true, Bool.not_true,
      Bool.and_false, Bool.not_false, Bool.toNat_true]
    split
    · omega
    · omega
  | @again tail hp =>
    have hopen := open_of_again hp hstep
    simp only [hp] at hpops
    subst hpops
    by_cases hlt : s.tail < s.head
    · simp only [cost, spins, brings, hp, hlt, hopen, RingPop.rank, decide_true, if_true,
        Bool.not_true, Bool.false_and, Bool.not_false, Bool.toNat_true]
      omega
    · simp [cost, spins, hp, hlt, hopen, RingPop.rank]
  | late hp hlt =>
    simp only [hp] at hpops
    obtain ⟨rfl, -⟩ := hpops
    simp only [cost, spins, brings, hp, hlt, RingPop.rank, decide_true, if_true, Bool.not_false,
      Bool.toNat_true]
    omega
  | refuse hp hlt =>
    simp only [cost, spins, brings, hp, RingPop.rank, Bool.not_false, Bool.toNat_true]
    grind
  | readSlot hp =>
    simp only [cost, spins, brings, hp, RingPop.rank, Bool.not_false, Bool.toNat_true]
    omega
  | storeTail hp =>
    simp only [cost, spins, brings, hp, RingPop.rank, Bool.not_false, Bool.toNat_true,
      List.length_append, List.length_singleton]
    omega

/-- An empty ring has room. -/
theorem Inv.room_of_empty (h : Inv c s) (hbound : s.pushed.length < 2 ^ w)
    (hempty : ¬ s.tail < s.head) : s.head - s.tail < s.capacity := by
  have hdrained : ¬ s.returned.length < s.pushed.length := fun hlt =>
    hempty ((h.available_iff hbound).mpr hlt)
  have hpos : 0 < 2 ^ c := Nat.two_pow_pos c
  rw [BitVec.lt_def, h.occupancy, h.capacity]
  omega

end LockFreeQueue

namespace Runner

variable [LT P] [DecidableLT P] [PriceArith P] [Zero P] {minCapacity : BitVec w} {band : P}
  {orders : List (Order P)} {s t : Runner P (LockFreeQueue w P)} {e : RunnerEvent (RingEvent P)}

def spins (s : Runner P (LockFreeQueue w P)) : RunnerEvent (RingEvent P) → Bool
  | .within e => s.queue.spins e
  | _ => false

/-- What is left of the run of `total` orders: calls of `push`, the calls in
progress, calls of `pop` and of `submit_order`. -/
def work (total : ℕ) (s : Runner P (LockFreeQueue w P)) : ℕ :=
  5 * s.todo.length + s.queue.cost + 4 * (total - s.queue.returned.length) + (total - s.handled)

/-- What holds along a run of fewer orders than the counters can count. -/
structure Going (minCapacity : BitVec w) (band : P) (orders : List (Order P))
    (s : Runner P (LockFreeQueue w P)) : Prop where
  inv : Inv (LockFreeQueue.api minCapacity) band orders s
  ring : ∃ c, s.queue.Inv c

namespace Going

theorem given (h : Going minCapacity band orders s) :
    s.queue.pushed.length + s.queue.push.inHand.length + s.todo.length = orders.length := by
  have hgiven : s.queue.pushed ++ s.queue.push.inHand ++ s.todo = orders := h.inv.given
  rw [← hgiven, List.length_append, List.length_append]

theorem returned_le (h : Going minCapacity band orders s) :
    s.queue.returned.length ≤ orders.length := by
  obtain ⟨c, hring⟩ := h.ring
  have hle := hring.returned_le
  have hgiven := h.given
  omega

theorem queue_moves (h : Going minCapacity band orders s) {qe : RingEvent P}
    {q : LockFreeQueue w P} (hq : s.queue.step qe = some q)
    (hpop : qe = .beginPop → s.queue.pop ≠ .refused) {todo : List (Order P)}
    (hinv : Inv (LockFreeQueue.api minCapacity) band orders { s with queue := q, todo := todo })
    (htodo : 5 * todo.length + LockFreeQueue.brings qe = 5 * s.todo.length) :
    Going minCapacity band orders { s with queue := q, todo := todo } ∧
      (!s.queue.spins qe).toNat + work orders.length { s with queue := q, todo := todo } ≤
        work orders.length s := by
  obtain ⟨c, hring⟩ := h.ring
  have ht : Going minCapacity band orders { s with queue := q, todo := todo } :=
    ⟨hinv, c, hring.step hq⟩
  have hcost := hring.step_cost hq hpop
  have hle : s.queue.returned.length ≤ orders.length := h.returned_le
  have hle' : q.returned.length ≤ orders.length := ht.returned_le
  refine ⟨ht, ?_⟩
  simp only [work]
  omega

theorem step (h : Going minCapacity band orders s) (hQ : (LockFreeQueue.api minCapacity :
      IOrderQueue P _ _).Delivers (· < 2 ^ w))
    (hstep : Runner.step (LockFreeQueue.api minCapacity) s e = some t) :
    Going minCapacity band orders t ∧
      (!s.spins e).toNat + work orders.length t ≤ work orders.length s := by
  have hinv := h.inv.step hQ (step_does hstep)
  cases e with
  | push =>
    simp only [Runner.step] at hstep
    split at hstep
    · cases hstep
    · rename_i o todo htodo
      obtain ⟨q, hq, rfl⟩ := Option.map_eq_some_iff.mp hstep
      have hmove : s.queue.step (.beginPush o) = some q := hq
      apply h.queue_moves hmove (fun hb => by cases hb) hinv
      rw [htodo, List.length_cons, LockFreeQueue.brings]
      omega
  | shutdown =>
    simp only [Runner.step] at hstep
    split at hstep
    · obtain ⟨q, hq, rfl⟩ := Option.map_eq_some_iff.mp hstep
      have hmove : s.queue.step .shutdown = some q := hq
      exact h.queue_moves hmove (fun hb => by cases hb) hinv rfl
    · cases hstep
  | pop =>
    simp only [Runner.step] at hstep
    split at hstep
    · rename_i hready
      obtain ⟨q, hq, rfl⟩ := Option.map_eq_some_iff.mp hstep
      have hmove : s.queue.step .beginPop = some q := hq
      refine h.queue_moves hmove (fun _ hpop => ?_) hinv rfl
      have hrefused : (LockFreeQueue.api minCapacity).refused s.queue = true :=
        RingPop.isRefused_iff.mpr hpop
      rw [hready.2] at hrefused
      cases hrefused
    · cases hstep
  | within qe =>
    simp only [Runner.step] at hstep
    split at hstep
    · cases hstep
    · rename_i hbegins
      obtain ⟨q, hq, rfl⟩ := Option.map_eq_some_iff.mp hstep
      have hinside : qe ≠ .beginPop ∧ LockFreeQueue.brings qe = 0 := by
        cases qe with
        | beginPush | beginPop => exact absurd rfl hbegins
        | _ => simp [LockFreeQueue.brings]
      apply h.queue_moves hq (fun hb => absurd hb hinside.1) hinv
      rw [hinside.2, Nat.add_zero]
  | submit =>
    simp only [Runner.step] at hstep
    split at hstep
    · cases hstep
    · rename_i o ho
      obtain rfl := Option.some.inj hstep
      have hlt : s.handled < s.queue.returned.length := (List.getElem?_eq_some_iff.mp ho).1
      have hle : s.queue.returned.length ≤ orders.length := h.returned_le
      refine ⟨⟨hinv, h.ring⟩, ?_⟩
      simp only [work, spins, Bool.not_false, Bool.toNat_true]
      omega

/-- On an empty ring that is not shut down the producer has a step to take. -/
theorem producer_moves (h : Going minCapacity band orders s) (hlt : orders.length < 2 ^ w)
    (hempty : ¬ s.queue.tail < s.queue.head) (hopen : s.queue.done = false) :
    ∃ e, s.spins e = false ∧
      (Runner.step (LockFreeQueue.api minCapacity) s e).isSome = true := by
  obtain ⟨c, hring⟩ := h.ring
  have hgiven := h.given
  cases hpush : s.queue.push with
  | idle =>
    cases htodo : s.todo with
    | nil => exact ⟨.shutdown, rfl, by simp [Runner.step, htodo, LockFreeQueue.api,
        LockFreeQueue.step, hpush]⟩
    | cons o todo => exact ⟨.push, rfl, by simp [Runner.step, htodo, LockFreeQueue.api,
        LockFreeQueue.step, hpush]⟩
  | loaded o head =>
    have hhead : head = s.queue.head := by
      simpa [LockFreeQueue.PushKnows, hpush] using hring.push
    have hroom := hring.room_of_empty (by omega) hempty
    rw [← hhead] at hroom
    refine ⟨.within .loadTail, ?_, within_isSome rfl ?_⟩
    · simp [spins, LockFreeQueue.spins, hpush, hroom]
    · simp [LockFreeQueue.api, LockFreeQueue.step, hpush, hroom]
  | writing o head =>
    exact ⟨.within .writeSlot, rfl,
      within_isSome rfl (by simp [LockFreeQueue.api, LockFreeQueue.step, hpush])⟩
  | storing o head =>
    exact ⟨.within .storeHead, rfl,
      within_isSome rfl (by simp [LockFreeQueue.api, LockFreeQueue.step, hpush])⟩
  | stopped =>
    rw [hring.closed.mpr hpush] at hopen
    cases hopen

/-- Until the consumer's loop has ended, one of the threads has a step to take
that is not part of a spin. -/
theorem progress (h : Going minCapacity band orders s) (hlt : orders.length < 2 ^ w)
    (hpop : s.queue.pop ≠ .refused) :
    ∃ e, s.spins e = false ∧
      (Runner.step (LockFreeQueue.api minCapacity) s e).isSome = true := by
  obtain ⟨c, hring⟩ := h.ring
  have hpops := hring.pop
  unfold LockFreeQueue.PopKnows at hpops
  -- a consumer that would find nothing leaves it to the producer
  by_cases hidle : ¬ s.queue.tail < s.queue.head ∧ s.queue.done = false
  · exact h.producer_moves hlt hidle.1 hidle.2
  have hseen : s.queue.tail < s.queue.head ∨ s.queue.done = true := by
    rcases Bool.eq_false_or_eq_true s.queue.done with hdone | hopen
    · exact .inr hdone
    · exact .inl (not_not.mp fun hempty => hidle ⟨hempty, hopen⟩)
  cases hpc : s.queue.pop with
  | idle =>
    rcases h.inv.consumer_turn (by simp [LockFreeQueue.api, hpc, RingPop.isRefused])
      (by simp [LockFreeQueue.api, LockFreeQueue.step, hpc]) with hsubmit | hcall
    · exact ⟨.submit, rfl, hsubmit⟩
    · exact ⟨.pop, rfl, hcall⟩
  | polling tail =>
    simp only [hpc] at hpops
    subst hpops
    refine ⟨.within .loadHead, ?_, within_isSome rfl ?_⟩
    · rcases hseen with hseen | hseen <;> simp [spins, LockFreeQueue.spins, hpc, hseen]
    · simp only [LockFreeQueue.api, LockFreeQueue.step, hpc]
      split <;> rfl
  | checking tail =>
    simp only [hpc] at hpops
    subst hpops
    refine ⟨.within .loadDone, ?_, within_isSome rfl ?_⟩
    · rcases hseen with hseen | hseen <;> simp [spins, LockFreeQueue.spins, hpc, hseen]
    · simp only [LockFreeQueue.api, LockFreeQueue.step, hpc]
      split <;> rfl
  | rechecking tail =>
    refine ⟨.within .recheck, rfl, within_isSome rfl ?_⟩
    simp only [LockFreeQueue.api, LockFreeQueue.step, hpc]
    split <;> rfl
  | reading tail =>
    exact ⟨.within .readSlot, rfl,
      within_isSome rfl (by simp [LockFreeQueue.api, LockFreeQueue.step, hpc])⟩
  | advancing tail o =>
    exact ⟨.within .storeTail, rfl,
      within_isSome rfl (by simp [LockFreeQueue.api, LockFreeQueue.step, hpc])⟩
  | refused => exact absurd hpc hpop

end Going

/-- **The ring's threads get done.** In every schedule of fewer orders than the
counters can count there are at most ten steps for each order and five more
that are not part of a spin. As long as `pop` has not returned false one of
them can be taken, and then the trades are those of the direct run. -/
theorem lockfree_completes (hw : 0 < w) (hmin : minCapacity.toNat ≤ 2 ^ (w - 1))
    (hlt : orders.length < 2 ^ w) {es : List (RunnerEvent (RingEvent P))}
    (h : exec (Runner.step (LockFreeQueue.api minCapacity))
      (init (LockFreeQueue.api minCapacity) band orders) es = some s) :
    tally (Runner.step (LockFreeQueue.api minCapacity)) (fun s e => !s.spins e)
        (init (LockFreeQueue.api minCapacity) band orders) es ≤ 10 * orders.length + 5 ∧
      (s.queue.pop = .refused ∧ s.trades = runSingleThreaded band orders ∨
        ∃ e, s.spins e = false ∧
          (Runner.step (LockFreeQueue.api minCapacity) s e).isSome = true) := by
  have hQ := LockFreeQueue.api_delivers (P := P) hw hmin
  have hstart : Going minCapacity band orders (init (LockFreeQueue.api minCapacity) band orders) :=
    ⟨inv_init hQ, LockFreeQueue.inv_new hw hmin⟩
  have hwork : work orders.length (init (LockFreeQueue.api minCapacity) band orders) =
      10 * orders.length + 5 := by
    simp only [work, init, LockFreeQueue.api, LockFreeQueue.new, LockFreeQueue.cost, RingPush.rank,
      RingPop.rank, List.length_nil]
    omega
  obtain ⟨hgoing, hle⟩ := exec_tally (I := Going minCapacity band orders) (μ := work orders.length)
    (fun s e t hs hstep => hs.step hQ hstep) hstart h
  refine ⟨Nat.le_trans (Nat.le_add_right _ _) (hwork ▸ hle), ?_⟩
  by_cases hpop : s.queue.pop = .refused
  · obtain ⟨htrades, -, hall⟩ := hgoing.inv.ended hQ (RingPop.isRefused_iff.mpr hpop)
    exact .inl ⟨hpop, by rw [htrades, hall hlt]⟩
  · exact .inr (hgoing.progress hlt hpop)

/-- On a ring of one slot the producer finds no room for the second order and
goes round once. -/
theorem lockfree_completes_one_slot :
    ∃ s : Runner ℚ (LockFreeQueue 64 ℚ), exec (Runner.step (LockFreeQueue.api 1#64))
        (init (LockFreeQueue.api 1#64) 10 threeOrders) oneSlotRun = some s ∧
      tally (Runner.step (LockFreeQueue.api 1#64)) (fun s e => !s.spins e)
        (init (LockFreeQueue.api 1#64) 10 threeOrders) oneSlotRun ≤ 10 * 3 + 5 ∧
      s.queue.pop = .refused := by
  have hrun : (exec (Runner.step (LockFreeQueue.api 1#64)) (init (LockFreeQueue.api 1#64) 10
      threeOrders) oneSlotRun).any (fun s => s.queue.pop.isRefused) = true := by decide +kernel
  obtain ⟨s, hs, hrefused⟩ := exec_any hrun
  exact ⟨s, hs, (lockfree_completes (by decide) (by decide) (by decide) hs).1,
    RingPop.isRefused_iff.mp hrefused⟩

end Runner

end TradingSystem
