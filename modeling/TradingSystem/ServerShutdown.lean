import TradingSystem.ServerMain

/-!
# The server's shutdown

After the event loop has returned the main thread calls `shutdown` and waits
for the consumer. If the notification of `shutdown` is not lost, the consumer
cannot block any more: each of its steps uses up part of a bound on what is
left to do, and until its loop has ended it has a step to take.
-/

namespace TradingSystem

open Transition

variable {P : Type}

/-- The producer holds the mutex. -/
def PushPc.holds : PushPc P → Bool
  | .locked _ | .enqueued => true
  | .idle | .notifying => false

/-- The consumer holds the mutex. -/
def PopPc.holds : PopPc → Bool
  | .testing | .passed | .failed => true
  | .idle | .blocked | .woken | .stopped => false

namespace MutexQueue

variable {s t : MutexQueue P} {e : QueueEvent P}

theorem api_step (h : (api : IOrderQueue P _ _).step s e = some t) : s.step e = some t :=
  (restrict_some.mp h).2

theorem api_isSome (hok : s.oneProducer e = true) (h : (s.step e).isSome = true) :
    ((api : IOrderQueue P _ _).step s e).isSome = true := by
  simpa [api, restrict, hok] using h

/-- Who is said to hold the mutex does. -/
structure Owned (s : MutexQueue P) : Prop where
  producer : s.mutex = some .producer → s.push.holds = true
  consumer : s.mutex = some .consumer → s.pop.holds = true

theorem notify_holds (s : MutexQueue P) (h : s.pop.holds = true) : s.notify.holds = true := by
  unfold notify
  split
  · rename_i hpop
    rw [hpop] at h
    cases h
  · exact h

theorem Owned.step (h : Owned s) (hstep : s.step e = some t) : Owned t := by
  cases step_does hstep with
  | lockPush => exact ⟨fun _ => rfl, nofun⟩
  | enqueue => exact ⟨fun _ => rfl, h.consumer⟩
  | lockPop | relock => exact ⟨nofun, fun _ => rfl⟩
  | unlockPush | block | drained | take => exact ⟨nofun, nofun⟩
  | testTrue | testFalse => exact ⟨h.producer, fun _ => rfl⟩
  | storeDone => exact ⟨h.producer, h.consumer⟩
  | notifyAll => exact ⟨h.producer, fun hm => s.notify_holds (h.consumer hm)⟩
  | notifyOne hpush =>
    refine ⟨fun hm => ?_, fun hm => s.notify_holds (h.consumer hm)⟩
    have hholds := h.producer hm
    rw [hpush] at hholds
    cases hholds

theorem Owned.init : Owned (MutexQueue.init : MutexQueue P) := ⟨nofun, nofun⟩

/-- A consumer that waits for the mutex gets it once nothing is pushed. -/
theorem Owned.free (h : Owned s) (hpush : s.push = .idle) (hpop : s.pop.holds = false) :
    s.mutex = none := by
  cases hm : s.mutex with
  | none => rfl
  | some owner =>
    cases owner with
    | producer =>
      have hholds := h.producer hm
      rw [hpush] at hholds
      cases hholds
    | consumer =>
      have hholds := h.consumer hm
      rw [hpop] at hholds
      cases hholds

end MutexQueue

/-- The steps of `stop`. -/
def ServerEvent.isStop {ε : Type} : ServerEvent ε → Bool
  | .loop .exchange | .loop .write => true
  | _ => false

/-- The steps from here to the end of a `pop` that finds nothing more. -/
def PopPc.rank : PopPc → ℕ
  | .idle | .woken => 3
  | .testing => 2
  | .passed => 1
  | .failed | .blocked | .stopped => 0

namespace Server

variable [LT P] [DecidableLT P] [PriceArith P] {price : UInt64 → P} {band : P}
  {s t : Server P (MutexQueue P)} {e : ServerEvent (QueueEvent P)}

/-- `shutdown` does not notify between the consumer's failed test and its
block. -/
def wakesInTime (s : Server P (MutexQueue P)) : ServerEvent (QueueEvent P) → Bool
  | .within e => s.queue.notifiesInTime e
  | _ => true

theorem Does.queue_step (h : Does MutexQueue.api price s e t) :
    t.queue = s.queue ∨ ∃ qe, s.queue.step qe = some t.queue ∧
      (s.wakesInTime e = true → s.queue.notifiesInTime qe = true) := by
  cases h with
  | loop | submit => exact .inl rfl
  | push _ hq => exact .inr ⟨.lockPush _, MutexQueue.api_step hq, fun _ => rfl⟩
  | shutdown _ hq => exact .inr ⟨.storeDone, MutexQueue.api_step hq, fun _ => rfl⟩
  | pop _ hq => exact .inr ⟨.lockPop, MutexQueue.api_step hq, fun _ => rfl⟩
  | within _ hq => exact .inr ⟨_, MutexQueue.api_step hq, id⟩

/-- The main thread has called `shutdown`, and the consumer was told. -/
structure Draining (price : UInt64 → P) (band : P) (s : Server P (MutexQueue P)) : Prop where
  inv : Inv MutexQueue.api price band s
  returned : s.loop.pc = .returned
  completed : s.queue.shutdown = .completed
  awake : s.queue.Awake
  owned : s.queue.Owned

/-- A bound on the consumer's steps: lock, test, take and submit for each order
in the queue, the orders taken and not submitted, and the last `pop`. -/
def remaining (s : Server P (MutexQueue P)) : ℕ :=
  4 * s.queue.queue.length + (s.queue.returned.length - s.handled) + s.queue.pop.rank

namespace Draining

theorem done (h : Draining price band s) : s.queue.done = true :=
  h.awake.stored (by rw [h.completed]; decide)

theorem drains (h : Draining price band s) : s.queue.Drains :=
  MutexQueue.reachable_drains h.inv.runner.queue

theorem push_idle (h : Draining price band s) : s.queue.push = .idle := h.drains.closed h.done

/-- A step of the queue is one of the consumer's. -/
theorem queue_step (h : Draining price band s) {qe : QueueEvent P} {q : MutexQueue P}
    (hbegins : qe = .lockPop ∨ qe.begins = false) (hq : s.queue.step qe = some q) :
    q.shutdown = .completed ∧ s.queue.notifiesInTime qe = true ∧
      Server.remaining { s with queue := q } < s.remaining := by
  have hidle := h.push_idle
  have hdone := h.done
  have hcompleted := h.completed
  have hle : s.handled ≤ s.queue.returned.length := h.inv.runner.handled_le
  cases MutexQueue.step_does hq with
  | lockPush | storeDone => rcases hbegins with hb | hb <;> cases hb
  | enqueue hpush | unlockPush hpush | notifyOne hpush =>
    rw [hidle] at hpush
    cases hpush
  | notifyAll hshut =>
    rw [hcompleted] at hshut
    cases hshut
  | testFalse _ _ hopen =>
    rw [hdone] at hopen
    cases hopen
  | block hpop => exact absurd hpop (h.awake.moving hcompleted).2
  | lockPop hpop | testTrue hpop | relock hpop | drained hpop =>
    refine ⟨hcompleted, rfl, ?_⟩
    simp only [Server.remaining, hpop, PopPc.rank]
    omega
  | take hpop hqueue =>
    refine ⟨hcompleted, rfl, ?_⟩
    simp only [Server.remaining, hpop, hqueue, PopPc.rank, List.length_cons, List.length_append,
      List.length_nil]
    omega

theorem step (h : Draining price band s) (he : e.isStop = false)
    (hstep : Does MutexQueue.api price s e t) :
    Draining price band t ∧ t.remaining < s.remaining := by
  have hinv : Inv MutexQueue.api price band t := h.inv.step MutexQueue.api_delivers hstep
  have hpc := h.returned
  cases hstep with
  | loop _ hl =>
    rcases hl.of_returned hpc with rfl | rfl
    · cases he
    · cases he
  | push hpush =>
    rw [hpc] at hpush
    cases hpush
  | shutdown _ hq =>
    have hmove : s.queue.step .storeDone = some _ := MutexQueue.api_step hq
    cases MutexQueue.step_does hmove with
    | storeDone hshut =>
      rw [h.completed] at hshut
      cases hshut
  | pop _ hq =>
    have hmove := MutexQueue.api_step hq
    obtain ⟨hcompleted, hok, hless⟩ := h.queue_step (.inl rfl) hmove
    exact ⟨⟨hinv, hpc, hcompleted, h.awake.step hok hmove, h.owned.step hmove⟩, hless⟩
  | within hin hq =>
    have hmove := MutexQueue.api_step hq
    obtain ⟨hcompleted, hok, hless⟩ := h.queue_step (.inr hin) hmove
    exact ⟨⟨hinv, hpc, hcompleted, h.awake.step hok hmove, h.owned.step hmove⟩, hless⟩
  | submit ho =>
    have hlt : s.handled < s.queue.returned.length := (List.getElem?_eq_some_iff.mp ho).1
    refine ⟨⟨hinv, hpc, h.completed, h.awake, h.owned⟩, ?_⟩
    simp only [Server.remaining]
    omega

/-- Until its loop has ended the consumer has a step to take. -/
theorem consumer_moves (h : Draining price band s) (hpop : s.queue.pop ≠ .stopped) :
    ∃ e, e ≠ .shutdown ∧ (Runner.step MutexQueue.api s.runner e).isSome = true := by
  have hidle := h.push_idle
  have hmoving := h.awake.moving h.completed
  cases hpc : s.queue.pop with
  | idle =>
    have hfree : s.queue.mutex = none := h.owned.free hidle (by rw [hpc]; rfl)
    have hlock : (MutexQueue.api.step s.queue MutexQueue.api.pop).isSome = true :=
      MutexQueue.api_isSome rfl (by simp [MutexQueue.api, MutexQueue.step, hpc, hfree])
    rcases h.inv.runner.consumer_turn (by simp [MutexQueue.api, hpc]) hlock with hsubmit | hcall
    · exact ⟨.submit, by simp, hsubmit⟩
    · exact ⟨.pop, by simp, hcall⟩
  | testing =>
    exact ⟨.within .test, by simp,
      Runner.within_isSome rfl (MutexQueue.api_isSome rfl (by simp [MutexQueue.step, hpc]))⟩
  | passed =>
    refine ⟨.within .take, by simp, Runner.within_isSome rfl (MutexQueue.api_isSome rfl ?_)⟩
    cases hqueue : s.queue.queue with
    | nil => simp [MutexQueue.step, hpc, hqueue]
    | cons o queue => simp [MutexQueue.step, hpc, hqueue]
  | woken =>
    have hfree : s.queue.mutex = none := h.owned.free hidle (by rw [hpc]; rfl)
    exact ⟨.within .relock, by simp,
      Runner.within_isSome rfl (MutexQueue.api_isSome rfl (by simp [MutexQueue.step, hpc, hfree]))⟩
  | blocked => exact absurd hpc hmoving.1
  | failed => exact absurd hpc hmoving.2
  | stopped => exact absurd hpc hpop

theorem progress (h : Draining price band s) (hpop : s.queue.pop ≠ .stopped) :
    ∃ e, e.isStop = false ∧ (Server.step MutexQueue.api price s e).isSome = true := by
  obtain ⟨e, he, hmove⟩ := h.consumer_moves hpop
  exact ⟨.ofRunner e, by cases e <;> rfl, step_of_runner he hmove⟩

end Draining

theorem reachable_steady {stopReadFd listenFd : ℕ}
    (h : Reachable (restrict (step MutexQueue.api price) wakesInTime)
      (init MutexQueue.api band stopReadFd listenFd) s) :
    Inv MutexQueue.api price band s ∧ s.queue.Awake ∧ s.queue.Owned := by
  have hstart : (MutexQueue.init : MutexQueue P).Awake :=
    ⟨fun hne => absurd rfl hne, fun hs => by cases hs⟩
  refine h.invariant
    (I := fun s => Inv MutexQueue.api price band s ∧ s.queue.Awake ∧ s.queue.Owned)
    ⟨inv_init MutexQueue.api_delivers _ _, hstart, MutexQueue.Owned.init⟩ ?_
  intro s e t ⟨hinv, hawake, howned⟩ he
  obtain ⟨hok, hstep⟩ := restrict_some.mp he
  have hdoes := step_does hstep
  refine ⟨hinv.step MutexQueue.api_delivers hdoes, ?_⟩
  rcases hdoes.queue_step with hsame | ⟨qe, hq, hin⟩
  · rw [hsame]
    exact ⟨hawake, howned⟩
  · exact ⟨hawake.step (hin hok) hq, howned.step hq⟩

/-- **The server comes to its end.** `shutdown` has returned in a run in which
it did not notify between the consumer's failed test and its block. From here
no schedule has more than `remaining` steps besides those of `stop`, and as
long as `pop` has not returned false there is a step to take. -/
theorem shutdown_completes {stopReadFd listenFd : ℕ}
    (h : Reachable (restrict (step MutexQueue.api price) wakesInTime)
      (init MutexQueue.api band stopReadFd listenFd) s)
    (hreturned : s.loop.pc = .returned) (hcompleted : s.queue.shutdown = .completed)
    {es : List (ServerEvent (QueueEvent P))}
    (he : exec (restrict (step MutexQueue.api price) fun _ e => !e.isStop) s es = some t) :
    es.length ≤ s.remaining ∧ (t.queue.pop = .stopped ∨
      ∃ e, e.isStop = false ∧ (step MutexQueue.api price t e).isSome = true) := by
  obtain ⟨hinv, hawake, howned⟩ := reachable_steady h
  have hdraining : Draining price band s := ⟨hinv, hreturned, hcompleted, hawake, howned⟩
  obtain ⟨hend, hle⟩ := exec_bounded (I := Draining price band) (μ := remaining)
    (fun s e t hs hstep => by
      obtain ⟨hok, hmove⟩ := restrict_some.mp hstep
      exact hs.step (by simpa using hok) (step_does hmove)) hdraining he
  refine ⟨by omega, ?_⟩
  by_cases hpop : t.queue.pop = .stopped
  · exact .inl hpop
  · exact .inr (hend.progress hpop)

theorem shutdown_completes_one_left :
    ∃ s t : Server ℚ (MutexQueue ℚ),
      exec (restrict (step MutexQueue.api fun w => (w.toNat : ℚ)) wakesInTime)
        (init MutexQueue.api (1 / 10) 3 4) sellBuyStop = some s ∧
      exec (restrict (step MutexQueue.api fun w => (w.toNat : ℚ)) fun _ e => !e.isStop) s drainOne =
        some t ∧ drainOne.length = s.remaining ∧ drainOne.length ≤ s.remaining := by
  have hrun : (exec (restrict (step MutexQueue.api fun w => (w.toNat : ℚ)) wakesInTime)
      (init MutexQueue.api (1 / 10) 3 4) sellBuyStop).any (fun s =>
        s.queue.shutdown == .completed && s.queue.done && s.remaining == drainOne.length &&
        (exec (restrict (step MutexQueue.api fun w => (w.toNat : ℚ)) fun _ e => !e.isStop) s
          drainOne).isSome) = true := by decide +kernel
  obtain ⟨s, hs, hq⟩ := exec_any hrun
  simp only [Bool.and_eq_true, beq_iff_eq] at hq
  obtain ⟨⟨⟨hcompleted, hdone⟩, hremaining⟩, hmore⟩ := hq
  obtain ⟨t, ht⟩ := Option.isSome_iff_exists.mp hmore
  have hreach := Reachable.start.exec hs
  have hreturned := (reachable_steady hreach).1.closed hdone
  exact ⟨s, t, hs, ht, hremaining.symm,
    (shutdown_completes hreach hreturned hcompleted ht).1⟩

end Server

end TradingSystem
