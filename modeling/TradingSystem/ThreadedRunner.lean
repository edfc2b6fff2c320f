import TradingSystem.LockFreeQueue
import TradingSystem.MutexQueue
import TradingSystem.QueueRunner

/-!
# Threaded and direct runs

`run_threaded` and `run_lockfree` of `tests/test_threaded_runner.cpp` against
`run_single_threaded`. The mutex queue delivers any number of orders. The ring
delivers until its counters wrap: `pop` compares them as numbers, and at the
wrap it takes a ring with an order in it for empty.
-/

namespace TradingSystem

open Transition

/-! ## The mutex queue delivers -/

/-- The order a producer inside `push` has not enqueued yet. -/
def PushPc.inHand {P : Type} : PushPc P → List (Order P)
  | .locked o => [o]
  | .idle | .enqueued | .notifying => []

def QueueEvent.begins {P : Type} : QueueEvent P → Bool
  | .lockPush _ | .lockPop | .storeDone => true
  | _ => false

namespace MutexQueue

variable {P : Type} {s t : MutexQueue P} {e : QueueEvent P}

/-- `push` and `shutdown` are called by one thread, `shutdown` last. -/
def oneProducer (s : MutexQueue P) : QueueEvent P → Bool
  | .lockPush _ => !s.done
  | .storeDone => match s.push with
    | .idle => true
    | _ => false
  | _ => true

def api : IOrderQueue P (MutexQueue P) (QueueEvent P) where
  init := init
  step := restrict step oneProducer
  push := .lockPush
  shutdown := .storeDone
  pop := .lockPop
  begins := QueueEvent.begins
  given s := s.returned ++ s.queue ++ s.push.inHand
  returned := returned
  done := done
  between s := s.pop == .idle
  refused s := s.pop == .stopped

/-- After `shutdown` nothing is pushed, and `pop` returns false only then and
on an empty queue. -/
structure Drains (s : MutexQueue P) : Prop where
  closed : s.done = true → s.push = .idle
  passed : s.pop = .passed → s.queue ≠ [] ∨ s.done = true
  stopped : s.pop = .stopped → s.done = true ∧ s.queue = []

theorem Drains.step (h : Drains s) (hok : s.oneProducer e = true) (hstep : s.step e = some t) :
    Drains t := by
  cases step_does hstep with
  | lockPush =>
    have hopen : s.done = false := by simpa [oneProducer] using hok
    exact ⟨fun hd => by simp [hopen] at hd, h.passed, h.stopped⟩
  | enqueue hpush =>
    have hopen : s.done ≠ true := fun hd => by
      rw [h.closed hd] at hpush
      cases hpush
    exact ⟨fun hd => absurd hd hopen, fun _ => .inl (by simp),
      fun hp => absurd (h.stopped hp).1 hopen⟩
  | unlockPush hpush =>
    refine ⟨fun hd => ?_, h.passed, h.stopped⟩
    rw [h.closed hd] at hpush
    cases hpush
  | notifyOne =>
    exact ⟨fun _ => rfl, fun hp => h.passed ((notify_eq_iff (by decide) (by decide)).mp hp),
      fun hp => h.stopped ((notify_eq_iff (by decide) (by decide)).mp hp)⟩
  | notifyAll =>
    exact ⟨h.closed, fun hp => h.passed ((notify_eq_iff (by decide) (by decide)).mp hp),
      fun hp => h.stopped ((notify_eq_iff (by decide) (by decide)).mp hp)⟩
  | testTrue _ htrue => exact ⟨h.closed, fun _ => htrue, nofun⟩
  | lockPop | testFalse | block | relock | take =>
    exact ⟨h.closed, nofun, nofun⟩
  | drained hpop hempty =>
    have hdone : s.done = true := (h.passed hpop).resolve_left fun hne => hne hempty
    exact ⟨h.closed, nofun, fun _ => ⟨hdone, hempty⟩⟩
  | storeDone =>
    have hidle : s.push = .idle := by
      simp only [oneProducer] at hok
      split at hok
      · assumption
      · cases hok
    exact ⟨fun _ => hidle, fun _ => .inr rfl, fun hp => ⟨rfl, (h.stopped hp).2⟩⟩

theorem reachable_drains (h : Reachable (restrict step oneProducer) init s) : Drains s := by
  refine h.invariant ⟨by simp [init], by simp [init], by simp [init]⟩ ?_
  intro s e t hs he
  obtain ⟨hok, hstep⟩ := restrict_some.mp he
  exact hs.step hok hstep

/-- The mutex queue delivers however many orders there are. -/
theorem api_delivers : (api : IOrderQueue P _ _).Delivers fun _ => True where
  push_ne_pop := nofun
  shutdown_ne_pop := nofun
  begins_pop := rfl
  given_init := rfl
  done_init := rfl
  push := by
    intro s t o h
    cases step_does (restrict_some.mp h).2 with
    | lockPush hpush => simp [api, PushPc.inHand, hpush]
  shutdown := by
    intro s t h
    cases step_does (restrict_some.mp h).2 with
    | storeDone => rfl
  other := by
    intro s t e h hin
    cases step_does (restrict_some.mp h).2 with
    | lockPush | storeDone => rcases hin with hin | hin <;> cases hin
    | enqueue hpush => simp [api, PushPc.inHand, hpush]
    | unlockPush hpush | notifyOne hpush => simp [api, PushPc.inHand, hpush]
    | take _ hqueue => simp [api, hqueue]
    | _ => exact ⟨rfl, rfl⟩
  returned_grows := by
    intro s t e h
    cases step_does (restrict_some.mp h).2 with
    | take => exact List.prefix_append _ _
    | _ => exact List.prefix_rfl
  quiet := by
    intro s t e h hb
    have hne : t.pop ≠ .idle := by simpa [api] using hb
    suffices t.returned = s.returned ∧ (e = .lockPop ∨ s.pop ≠ .idle) by simpa [api] using this
    cases step_does (restrict_some.mp h).2 with
    | lockPop => exact ⟨rfl, .inl rfl⟩
    | take => exact absurd rfl hne
    | notifyOne | notifyAll =>
      exact ⟨rfl, .inr fun hp => hne ((notify_eq_iff (by decide) (by decide)).mpr hp)⟩
    | testTrue hpop | testFalse hpop | block hpop | relock hpop | drained hpop =>
      exact ⟨rfl, .inr (by simp [hpop])⟩
    | _ => exact ⟨rfl, .inr hne⟩
  returned_prefix := fun s _ => by simp [api, List.append_assoc]
  refused := by
    intro s h hr
    have hpop : s.pop = .stopped := by simpa [api] using hr
    have hinv : Drains s := reachable_drains h
    obtain ⟨hdone, hempty⟩ := hinv.stopped hpop
    refine ⟨hdone, by simp [api, hpop], fun _ => ?_⟩
    simp [api, hempty, hinv.closed hdone, PushPc.inHand]

end MutexQueue

/-! ## The ring delivers until its counters wrap -/

/-- The order a producer inside `push` has not published yet. -/
def RingPush.inHand {w : ℕ} {P : Type} : RingPush w P → List (Order P)
  | .loaded o _ | .writing o _ | .storing o _ => [o]
  | .idle | .stopped => []

def RingEvent.begins {P : Type} : RingEvent P → Bool
  | .beginPush _ | .beginPop | .shutdown => true
  | _ => false

def RingPop.isIdle {w : ℕ} {P : Type} : RingPop w P → Bool
  | .idle => true
  | _ => false

def RingPop.isRefused {w : ℕ} {P : Type} : RingPop w P → Bool
  | .refused => true
  | _ => false

theorem RingPop.isRefused_iff {w : ℕ} {P : Type} {pc : RingPop w P} :
    pc.isRefused = true ↔ pc = .refused := by
  cases pc <;> simp [isRefused]

namespace LockFreeQueue

variable {w : ℕ} {P : Type} {s t : LockFreeQueue w P} {e : RingEvent P} {minCapacity : BitVec w}

/-- `pop` finds its counter below `head_` only if it is not the last one. -/
structure Counted (s : LockFreeQueue w P) : Prop where
  returned : s.returned.length < 2 ^ w
  reading : ∀ tail, s.pop = .reading tail → s.returned.length + 1 < 2 ^ w
  advancing : ∀ tail o, s.pop = .advancing tail o → s.returned.length + 1 < 2 ^ w

theorem Counted.available (h : Counted s) {c : ℕ} (hinv : Inv c s) (hlt : s.tail < s.head) :
    Counted { s with pop := .reading s.tail } := by
  have htail : s.tail.toNat = s.returned.length := hinv.tail_toNat h.returned
  have hroom : s.returned.length + 1 < 2 ^ w := by
    have hhead : s.head.toNat < 2 ^ w := s.head.isLt
    rw [BitVec.lt_def, htail] at hlt
    omega
  exact ⟨h.returned, fun _ _ => hroom, nofun⟩

theorem Counted.step (h : Counted s) {c : ℕ} (hinv : Inv c s) (hstep : s.step e = some t) :
    Counted t := by
  have hpops := hinv.pop
  unfold PopKnows at hpops
  cases step_does hstep with
  | available hpop hlt =>
    simp only [hpop] at hpops
    rw [hpops] at hlt ⊢
    exact h.available hinv hlt
  | late hpop hlt =>
    simp only [hpop] at hpops
    rw [hpops.1] at hlt ⊢
    exact h.available hinv hlt
  | readSlot hpop => exact ⟨h.returned, nofun, fun _ _ _ => h.reading _ hpop⟩
  | storeTail hpop =>
    have hroom := h.advancing _ _ hpop
    exact ⟨by rw [List.length_append]; exact hroom, nofun, nofun⟩
  | beginPop | nothing | sawDone | again | refuse => exact ⟨h.returned, nofun, nofun⟩
  | _ => exact ⟨h.returned, h.reading, h.advancing⟩

variable [Zero P]

def api (minCapacity : BitVec w) : IOrderQueue P (LockFreeQueue w P) (RingEvent P) where
  init := new minCapacity
  step := step
  push := .beginPush
  shutdown := .shutdown
  pop := .beginPop
  begins := RingEvent.begins
  given s := s.pushed ++ s.push.inHand
  returned := returned
  done := done
  between s := s.pop.isIdle
  refused s := s.pop.isRefused

/-- The ring delivers fewer orders than its counters can count. -/
theorem api_delivers (hw : 0 < w) (hmin : minCapacity.toNat ≤ 2 ^ (w - 1)) :
    (api minCapacity : IOrderQueue P _ _).Delivers (· < 2 ^ w) where
  push_ne_pop := nofun
  shutdown_ne_pop := nofun
  begins_pop := rfl
  given_init := rfl
  done_init := rfl
  push := by
    intro s t o (h : step s (.beginPush o) = some t)
    cases step_does h with
    | beginPush hpush => simp [api, RingPush.inHand, hpush]
  shutdown := by
    intro s t (h : step s .shutdown = some t)
    cases step_does h with
    | shutdown hpush => simp [api, RingPush.inHand, hpush]
  other := by
    intro s t e h hin
    cases step_does h with
    | beginPush | shutdown => rcases hin with hin | hin <;> cases hin
    | room hpush | writeSlot hpush | storeHead hpush => simp [api, RingPush.inHand, hpush]
    | _ => exact ⟨rfl, rfl⟩
  returned_grows := by
    intro s t e h
    cases step_does h with
    | storeTail => exact List.prefix_append _ _
    | _ => exact List.prefix_rfl
  quiet := by
    intro s t e h hb
    cases step_does h with
    | beginPop => exact ⟨rfl, .inl rfl⟩
    | storeTail => cases hb
    | available hpop | nothing hpop | sawDone hpop | again hpop | late hpop | refuse hpop
    | readSlot hpop => exact ⟨rfl, .inr (by simp [api, RingPop.isIdle, hpop])⟩
    | _ => exact ⟨rfl, .inr hb⟩
  returned_prefix := by
    intro s h
    obtain ⟨c, hinv⟩ := reachable_inv hw hmin h
    exact (s.returned_prefix_taken.trans hinv.taken_prefix).trans (List.prefix_append _ _)
  refused := by
    intro s h hr
    have hpop : s.pop = .refused := RingPop.isRefused_iff.mp hr
    obtain ⟨c, hinv⟩ := reachable_inv hw hmin h
    have hdone : s.done = true := by
      have := hinv.pop
      simp only [PopKnows, hpop] at this
      exact this.1
    have hgiven : s.pushed ++ s.push.inHand = s.pushed := by
      simp [hinv.closed.mp hdone, RingPush.inHand]
    refine ⟨hdone, by simp [api, RingPop.isIdle, hpop], fun hlt => ?_⟩
    change s.returned = s.pushed ++ s.push.inHand
    rw [hgiven]
    exact ((hinv.fifo (by simpa [api, hgiven] using hlt)).refused hpop).2

/-- The consumer never gets past the wrap of its counter. -/
theorem reachable_counted (hw : 0 < w) (hmin : minCapacity.toNat ≤ 2 ^ (w - 1))
    (h : Reachable step (new minCapacity) s) : Counted s := by
  obtain ⟨c, hinit⟩ := inv_new (P := P) hw hmin
  have hboth : Inv c s ∧ Counted s :=
    h.invariant (I := fun s => Inv c s ∧ Counted s) ⟨hinit, Nat.two_pow_pos w, nofun, nofun⟩
      fun _ _ _ hs he => ⟨hs.1.step he, hs.2.step hs.1 he⟩
  exact hboth.2

end LockFreeQueue

/-! ## Threaded equals direct -/

section Threaded

variable {P : Type} [LT P] [DecidableLT P] [PriceArith P]

/-- The states the two threads of `run_threaded` can be in. -/
def runThreaded (band : P) (orders : List (Order P)) : Runner P (MutexQueue P) → Prop :=
  Reachable (Runner.step MutexQueue.api) (.init MutexQueue.api band orders)

variable [Zero P] {w : ℕ} {band : P} {orders : List (Order P)}

/-- The states the two threads of `run_lockfree` can be in. -/
def runLockfree (minCapacity : BitVec w) (band : P) (orders : List (Order P)) :
    Runner P (LockFreeQueue w P) → Prop :=
  Reachable (Runner.step (LockFreeQueue.api minCapacity))
    (.init (LockFreeQueue.api minCapacity) band orders)

/-- **Threaded output equals direct output.** When the consumer's loop has
ended its trades are those of the direct run: with the mutex queue always,
with the ring if there are fewer orders than `size_t` can count. With more,
the ring's consumer ends without having received all of them. -/
theorem threaded_eq_single (band : P) (orders : List (Order P)) :
    (∀ s, runThreaded band orders s → s.queue.pop = .stopped →
      s.trades = runSingleThreaded band orders) ∧
    ∀ (w : ℕ) (minCapacity : BitVec w), 0 < w → minCapacity.toNat ≤ 2 ^ (w - 1) →
      ∀ s, runLockfree minCapacity band orders s → s.queue.pop = .refused →
        (orders.length < 2 ^ w → s.trades = runSingleThreaded band orders) ∧
          (2 ^ w ≤ orders.length → s.queue.returned ≠ orders) := by
  constructor
  · intro s hs hpop
    have hinv := Runner.reachable_inv MutexQueue.api_delivers hs
    obtain ⟨htrades, -, hall⟩ := hinv.ended MutexQueue.api_delivers (by simp [MutexQueue.api, hpop])
    rw [htrades, hall trivial]
  · intro w minCapacity hw hmin s hs hpop
    have hQ := LockFreeQueue.api_delivers (P := P) hw hmin
    have hinv := Runner.reachable_inv hQ hs
    obtain ⟨htrades, -, hall⟩ := hinv.ended hQ (RingPop.isRefused_iff.mpr hpop)
    refine ⟨fun hlt => by rw [htrades, hall hlt], fun hle he => ?_⟩
    have hcounted := (LockFreeQueue.reachable_counted hw hmin hinv.queue).returned
    rw [he] at hcounted
    omega

/-- A sell, a buy that takes it, and a buy outside the collar. -/
def threeOrders : List (Order ℚ) :=
  [Order.make 1 .sell .limit 100 10, Order.make 2 .buy .limit 100 10,
    Order.make 3 .buy .limit 150 10]

/-- The consumer waits before the first push and is woken by it. -/
def wokenByPush : List (RunnerEvent (QueueEvent ℚ)) :=
  let push : List (RunnerEvent (QueueEvent ℚ)) :=
    [.push, .within .enqueue, .within .unlockPush, .within .notifyOne]
  let pop : List (RunnerEvent (QueueEvent ℚ)) := [.pop, .within .test, .within .take]
  List.flatten [[.pop, .within .test, .within .block], push, push,
    [.within .relock, .within .test, .within .take, .submit], push, pop,
    [.shutdown, .submit, .within .notifyAll], pop, [.submit], pop]

/-- In a ring of one slot the producer waits for each pop. -/
def oneSlotRun : List (RunnerEvent (RingEvent ℚ)) :=
  let push : List (RunnerEvent (RingEvent ℚ)) :=
    [.within .loadTail, .within .writeSlot, .within .storeHead]
  let pop : List (RunnerEvent (RingEvent ℚ)) :=
    [.pop, .within .loadHead, .within .readSlot, .within .storeTail]
  List.flatten [[.push], push, [.push, .within .loadTail], pop, push, [.push, .submit], pop, push,
    [.shutdown, .submit], pop, [.submit, .pop, .within .loadHead, .within .loadDone, .within .recheck]]

theorem threaded_eq_single_three_orders :
    (runSingleThreaded 10 threeOrders).length = 1 ∧
    (∃ s, runThreaded 10 threeOrders s ∧ s.queue.pop = .stopped ∧
      s.trades = runSingleThreaded 10 threeOrders) ∧
    ∃ s, runLockfree 1#64 10 threeOrders s ∧ s.queue.pop = .refused ∧
      s.trades = runSingleThreaded 10 threeOrders := by
  have hmutex : (exec (Runner.step MutexQueue.api) (.init MutexQueue.api 10 threeOrders)
      wokenByPush).any (fun s => s.queue.pop == .stopped) = true := by decide +kernel
  have hring : (exec (Runner.step (LockFreeQueue.api 1#64)) (.init (LockFreeQueue.api 1#64) 10
      threeOrders) oneSlotRun).any (fun s => s.queue.pop.isRefused) = true := by decide +kernel
  obtain ⟨s, hs, hstopped⟩ := exec_any hmutex
  obtain ⟨t, ht, hrefused⟩ := exec_any hring
  have hpop : s.queue.pop = .stopped := by simpa using hstopped
  have hpop' : t.queue.pop = .refused := RingPop.isRefused_iff.mp hrefused
  have hs' : runThreaded 10 threeOrders s := Reachable.start.exec hs
  have ht' : runLockfree 1#64 10 threeOrders t := Reachable.start.exec ht
  refine ⟨by decide +kernel, ⟨s, hs', hpop, ?_⟩, t, ht', hpop', ?_⟩
  · exact (threaded_eq_single 10 threeOrders).1 s hs' hpop
  · exact ((threaded_eq_single 10 threeOrders).2 64 1#64 (by decide) (by decide) t ht' hpop').1
      (by decide)

/-! ## The wrap of the ring's counters -/

/-- Both threads are between calls, and everything pushed was popped and
submitted. -/
structure CaughtUp (minCapacity : BitVec w) (band : P) (orders todo : List (Order P))
    (s : Runner P (LockFreeQueue w P)) : Prop where
  reachable : runLockfree minCapacity band orders s
  todo : s.todo = todo
  push : s.queue.push = .idle
  pop : s.queue.pop = .idle
  drained : s.queue.pushed = s.queue.returned
  handled : s.handled = s.queue.returned.length

def pushOne : List (RunnerEvent (RingEvent P)) :=
  [.push, .within .loadTail, .within .writeSlot, .within .storeHead]

def popOne : List (RunnerEvent (RingEvent P)) :=
  [.pop, .within .loadHead, .within .readSlot, .within .storeTail, .submit]

variable {minCapacity : BitVec w} {s : Runner P (LockFreeQueue w P)} {o : Order P}
  {todo : List (Order P)}

theorem CaughtUp.inv (h : CaughtUp minCapacity band orders todo s) (hw : 0 < w)
    (hmin : minCapacity.toNat ≤ 2 ^ (w - 1)) : ∃ c, s.queue.Inv c :=
  LockFreeQueue.reachable_inv hw hmin
    (Runner.reachable_inv (LockFreeQueue.api_delivers hw hmin) h.reachable).queue

/-- A push into the drained ring. -/
theorem CaughtUp.exec_pushOne (h : CaughtUp minCapacity band orders (o :: todo) s) (hw : 0 < w)
    (hmin : minCapacity.toNat ≤ 2 ^ (w - 1)) :
    exec (Runner.step (LockFreeQueue.api minCapacity)) s pushOne =
      some { s with
        todo := todo
        queue := { s.queue with
          head := s.queue.head + 1#w
          pushed := s.queue.pushed ++ [o]
          buffer := Function.update s.queue.buffer (s.queue.slot s.queue.head) o
          unread := Function.update s.queue.unread (s.queue.slot s.queue.head) true } } := by
  obtain ⟨c, hinv⟩ := h.inv hw hmin
  have hroom : s.queue.head - s.queue.tail < s.queue.capacity := by
    rw [BitVec.lt_def, hinv.occupancy, hinv.capacity, h.drained, Nat.sub_self]
    exact Nat.two_pow_pos c
  simp [exec, pushOne, Runner.step, LockFreeQueue.api, LockFreeQueue.step, RingEvent.begins,
    LockFreeQueue.slot, h.todo, h.push, hroom]

/-- A pop that finds an order, and its submission. -/
theorem exec_popOne (hpop : s.queue.pop = .idle) (hseen : s.queue.tail < s.queue.head)
    (hhandled : s.handled = s.queue.returned.length) :
    exec (Runner.step (LockFreeQueue.api minCapacity)) s popOne =
      let o := s.queue.buffer (s.queue.slot s.queue.tail)
      some { s with
        queue := { s.queue with
          tail := s.queue.tail + 1#w
          returned := s.queue.returned ++ [o]
          unread := Function.update s.queue.unread (s.queue.slot s.queue.tail) false }
        engine := (s.engine.submitOrder o).1
        handled := s.handled + 1
        trades := s.trades ++ (s.engine.submitOrder o).2.tradeList } := by
  simp [exec, popOne, Runner.step, LockFreeQueue.api, LockFreeQueue.step, RingEvent.begins,
    RingPop.isRefused, LockFreeQueue.slot, hpop, hseen, hhandled]

/-- While the counter has not wrapped the next order is pushed, popped and
submitted. -/
theorem CaughtUp.next (h : CaughtUp minCapacity band orders (o :: todo) s) (hw : 0 < w)
    (hmin : minCapacity.toNat ≤ 2 ^ (w - 1)) (hlt : s.queue.returned.length + 1 < 2 ^ w) :
    ∃ t, CaughtUp minCapacity band orders todo t ∧
      t.queue.returned = s.queue.returned ++ [o] := by
  obtain ⟨c, hinv⟩ := h.inv hw hmin
  have hhead : s.queue.head = s.queue.tail := by rw [hinv.head, hinv.tail, h.drained]
  have hseen : s.queue.tail < s.queue.head + 1#w := by
    have hnext : s.queue.head + 1#w = BitVec.ofNat w (s.queue.returned.length + 1) := by
      rw [hhead, hinv.tail, BitVec.ofNat_add]
    rw [hnext, hinv.tail, BitVec.lt_def, BitVec.toNat_ofNat, BitVec.toNat_ofNat,
      Nat.mod_eq_of_lt hlt, Nat.mod_eq_of_lt (by omega)]
    exact Nat.lt_succ_self _
  have hpushed := Reachable.exec h.reachable (h.exec_pushOne hw hmin)
  have hpopped := hpushed.exec (exec_popOne h.pop hseen h.handled)
  refine ⟨_, ⟨hpopped, rfl, h.push, h.pop, ?_, ?_⟩, ?_⟩
  all_goals simp [LockFreeQueue.slot, hhead, h.drained, h.handled]

theorem CaughtUp.nexts {os : List (Order P)} (h : CaughtUp minCapacity band orders (os ++ todo) s)
    (hw : 0 < w) (hmin : minCapacity.toNat ≤ 2 ^ (w - 1))
    (hlt : s.queue.returned.length + os.length < 2 ^ w) :
    ∃ t, CaughtUp minCapacity band orders todo t ∧ t.queue.returned = s.queue.returned ++ os := by
  induction os generalizing s with
  | nil => exact ⟨s, h, by simp⟩
  | cons o os ih =>
    rw [List.length_cons] at hlt
    obtain ⟨t, ht, hreturned⟩ := h.next hw hmin (by omega)
    obtain ⟨u, hu, hrest⟩ := ih ht (by rw [hreturned, List.length_append, List.length_singleton]; omega)
    exact ⟨u, hu, by rw [hrest, hreturned, List.append_assoc]; rfl⟩

/-- `shutdown`, and a `pop` that sees nothing. -/
def stopEmpty : List (RunnerEvent (RingEvent P)) :=
  [.shutdown, .pop, .within .loadHead, .within .loadDone, .within .recheck]

theorem exec_stopEmpty (htodo : s.todo = []) (hpush : s.queue.push = .idle)
    (hpop : s.queue.pop = .idle) (hhandled : s.handled = s.queue.returned.length)
    (hunseen : ¬ s.queue.tail < s.queue.head) :
    exec (Runner.step (LockFreeQueue.api minCapacity)) s stopEmpty =
      some { s with queue := { s.queue with done := true, push := .stopped, pop := .refused } } := by
  simp [exec, stopEmpty, Runner.step, LockFreeQueue.api, LockFreeQueue.step, RingEvent.begins,
    RingPop.isRefused, htodo, hpush, hpop, hhandled, hunseen]

/-- The order that brings `head_` back to zero is pushed, and the consumer
takes the ring for empty. -/
theorem CaughtUp.wraps (h : CaughtUp minCapacity band orders [o] s) (hw : 0 < w)
    (hmin : minCapacity.toNat ≤ 2 ^ (w - 1)) (hlast : s.queue.returned.length + 1 = 2 ^ w) :
    ∃ t, runLockfree minCapacity band orders t ∧ t.queue.pop = .refused ∧
      t.queue.returned = s.queue.returned := by
  obtain ⟨c, hinv⟩ := h.inv hw hmin
  have hzero : s.queue.head + 1#w = 0#w := by
    rw [hinv.head, h.drained, ← BitVec.ofNat_add, hlast]
    apply BitVec.eq_of_toNat_eq
    rw [BitVec.toNat_ofNat, BitVec.toNat_ofNat, Nat.mod_self, Nat.zero_mod]
  have hpushed := Reachable.exec h.reachable (h.exec_pushOne hw hmin)
  have hunseen : ¬ s.queue.tail < s.queue.head + 1#w := by
    rw [hzero]
    exact BitVec.not_lt_zero
  exact ⟨_, hpushed.exec (exec_stopEmpty rfl h.push h.pop h.handled hunseen), rfl, rfl⟩

/-- With one order more than the counters can tell from none, the consumer's
loop can end without the last order. -/
theorem runLockfree_misses (minCapacity : BitVec w) (hw : 0 < w)
    (hmin : minCapacity.toNat ≤ 2 ^ (w - 1)) (band : P)
    {os : List (Order P)} (hlen : os.length + 1 = 2 ^ w) (o : Order P) :
    ∃ s, runLockfree minCapacity band (os ++ [o]) s ∧ s.queue.pop = .refused ∧
      s.queue.returned = os := by
  have hstart : CaughtUp minCapacity band (os ++ [o]) (os ++ [o])
      (.init (LockFreeQueue.api minCapacity) band (os ++ [o])) :=
    ⟨.start, rfl, rfl, rfl, rfl, rfl⟩
  have hnone : (Runner.init (LockFreeQueue.api minCapacity) band (os ++ [o])).queue.returned = [] :=
    rfl
  obtain ⟨s, hs, hreturned⟩ := hstart.nexts hw hmin (by rw [hnone, List.length_nil]; omega)
  rw [hnone, List.nil_append] at hreturned
  obtain ⟨t, ht, hpop, hsame⟩ := hs.wraps hw hmin (by rw [hreturned]; exact hlen)
  exact ⟨t, ht, hpop, hsame.trans hreturned⟩

/-- So the trades are those of the orders before it. -/
theorem runLockfree_loses (minCapacity : BitVec w) (hw : 0 < w)
    (hmin : minCapacity.toNat ≤ 2 ^ (w - 1)) (band : P)
    {os : List (Order P)} (hlen : os.length + 1 = 2 ^ w) (o : Order P) :
    ∃ s, runLockfree minCapacity band (os ++ [o]) s ∧ s.queue.pop = .refused ∧
      s.trades = runSingleThreaded band os := by
  obtain ⟨s, hs, hpop, hreturned⟩ := runLockfree_misses minCapacity hw hmin band hlen o
  have hQ := LockFreeQueue.api_delivers (P := P) hw hmin
  obtain ⟨htrades, -, -⟩ := (Runner.reachable_inv hQ hs).ended hQ (RingPop.isRefused_iff.mpr hpop)
  have hpopped : (LockFreeQueue.api minCapacity).returned s.queue = os := hreturned
  exact ⟨s, hs, hpop, by rw [htrades, hpopped]⟩

end Threaded

/-- Market orders without quantity change nothing but the timestamp. -/
theorem directRun_quiet {P : Type} [LT P] [DecidableLT P] [PriceArith P] (band : P) {o : Order P}
    (hm : o.type = .market) (hq : o.quantity = 0) (n : ℕ) (more : List (Order P)) :
    ∃ k, runSingleThreaded band (List.replicate n o ++ more) =
      (Machine.run MatchingEngine.submitOrder
        { MatchingEngine.new band with nextTimestamp := k } more).2.flatMap
          SubmitResult.tradeList := by
  suffices ∀ e : MatchingEngine P, ∃ k,
      Machine.run MatchingEngine.submitOrder e (List.replicate n o) =
        ({ e with nextTimestamp := k }, List.replicate n (.trades [])) by
    obtain ⟨k, hk⟩ := this (.new band)
    refine ⟨k, ?_⟩
    rw [runSingleThreaded, directRun, Machine.run_append, hk, List.flatMap_append]
    simp [SubmitResult.tradeList]
  intro e
  induction n generalizing e with
  | zero => exact ⟨e.nextTimestamp, rfl⟩
  | succ n ih =>
    obtain ⟨k, hk⟩ := ih e.tick
    refine ⟨k, ?_⟩
    rw [List.replicate_succ, Machine.run_cons, e.submitOrder_zero_market hm hq, hk,
      List.replicate_succ]
    rfl

/-- Orders without quantity, then a sell. -/
def quietThenSell (n : ℕ) : List (Order ℚ) :=
  List.replicate n (Order.make 1 .buy .market 0 0) ++ [Order.make 2 .sell .limit 100 10]

theorem quietThenSell_quiet (n : ℕ) : runSingleThreaded 10 (quietThenSell n) = [] := by
  obtain ⟨k, hk⟩ := directRun_quiet (10 : ℚ) (o := Order.make 1 .buy .market 0 0) rfl rfl n
    [Order.make 2 .sell .limit 100 10]
  rw [quietThenSell, hk]
  rfl

/-- A market buy takes the sell that rests. -/
theorem quietThenSell_trades (n : ℕ) :
    runSingleThreaded 10 (quietThenSell n ++ [Order.make 3 .buy .market 0 10]) ≠ [] := by
  obtain ⟨k, hk⟩ := directRun_quiet (10 : ℚ) (o := Order.make 1 .buy .market 0 0) rfl rfl n
    ([Order.make 2 .sell .limit 100 10] ++ [Order.make 3 .buy .market 0 10])
  rw [quietThenSell, List.append_assoc, hk, Machine.run_snoc, List.flatMap_append,
    List.flatMap_singleton]
  refine List.append_ne_nil_of_right_ne_nil _ ?_
  rw [MatchingEngine.submitOrder_accepted rfl]
  exact matchAgainst_trades_ne_nil rfl

theorem ring_wrap_loses_trade :
    ∃ (orders : List (Order ℚ)) (s : Runner ℚ (LockFreeQueue 64 ℚ)),
      runLockfree (1#64 <<< 20) 10 orders s ∧ s.queue.pop = .refused ∧ s.trades = [] ∧
        runSingleThreaded 10 orders ≠ [] := by
  have hlen : (quietThenSell (2 ^ 64 - 2)).length + 1 = 2 ^ 64 := by
    rw [quietThenSell, List.length_append, List.length_replicate, List.length_singleton]
    omega
  obtain ⟨s, hs, hpop, htrades⟩ := runLockfree_loses (1#64 <<< 20) (by decide) (by decide) 10 hlen
    (Order.make 3 .buy .market 0 10)
  exact ⟨_, s, hs, hpop, htrades.trans (quietThenSell_quiet _), quietThenSell_trades _⟩

end TradingSystem
